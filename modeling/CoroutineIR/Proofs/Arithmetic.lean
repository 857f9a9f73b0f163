import CoroutineIR.Proofs.Visiting
import Mathlib.Data.Int.Bitwise
import Mathlib.Data.Int.ModEq
import Mathlib.Tactic.Positivity

/-!
# Arithmetic at the width of a type

Operations on integers are evaluated on words of 64 bits, and the result is cut down to the width of
its type. What is left is the one integer in the range of the type that agrees with the result in
the bits the type has. Sums, products and bitwise operations can be carried out on these bits alone,
so that the outcome is that of the type. Quotients, shifts to the right and comparisons depend on
how an operand is read: they are right if the operands are stored as the operation reads them.
-/

namespace CoroutineIR

open List Option

variable {ε : Type}

/-! ### Integers in the bits of a word -/

section Bits

variable {w : ℕ} {a b : ℤ}

theorem ofInt_eq_ofInt_iff : BitVec.ofInt w a = BitVec.ofInt w b ↔ a ≡ b [ZMOD 2 ^ w] := by
  have hpos : (0 : ℤ) < 2 ^ w := Int.pow_pos (by decide)
  have ha := Int.emod_nonneg a hpos.ne'
  have hb := Int.emod_nonneg b hpos.ne'
  rw [← BitVec.toNat_inj, BitVec.toNat_ofInt, BitVec.toNat_ofInt, Int.ModEq]
  push_cast
  omega

/-- The low bits of an integer are those of its word. -/
theorem getLsbD_ofInt (w : ℕ) (z : ℤ) (i : ℕ) :
    (BitVec.ofInt w z).getLsbD i = (decide (i < w) && z.testBit i) := by
  cases z with
  | ofNat n => simp [BitVec.ofInt_natCast, BitVec.getLsbD_ofNat, Int.testBit]
  | negSucc n =>
    by_cases hi : i < w
    · rw [BitVec.ofInt_negSucc_eq_not_ofNat, BitVec.getLsbD_not, BitVec.getLsbD_ofNat]
      simp [Int.testBit, hi]
    · simp [hi]

theorem setWidth_toBitVec (hw : w ≤ 64) (x : Int64) :
    x.toBitVec.setWidth w = BitVec.ofInt w x.toInt := by
  refine BitVec.eq_of_getLsbD_eq fun i hi => ?_
  rw [BitVec.getLsbD_setWidth, getLsbD_ofInt, ← BitVec.ofInt_int64ToInt, getLsbD_ofInt]
  simp [hi, Nat.lt_of_lt_of_le hi hw]

/-- Integers that agree in their lowest bits are congruent. -/
theorem modEq_iff_testBit : a ≡ b [ZMOD 2 ^ w] ↔ ∀ i < w, a.testBit i = b.testBit i := by
  rw [← ofInt_eq_ofInt_iff]
  constructor
  · intro h i hi
    have hbit := congrArg (·.getLsbD i) h
    simpa only [getLsbD_ofInt, hi, decide_true, Bool.true_and] using hbit
  · intro h
    refine BitVec.eq_of_getLsbD_eq fun i hi => ?_
    rw [getLsbD_ofInt, getLsbD_ofInt, h i hi]

theorem modEq_bmod (z : ℤ) (w : ℕ) : z.bmod (2 ^ w) ≡ z [ZMOD 2 ^ w] := by
  have h := Int.bmod_emod (x := z) (m := 2 ^ w)
  push_cast at h
  exact h

/-- Congruence in more bits is congruence in fewer. -/
theorem modEq_of_le {k : ℕ} (h : a ≡ b [ZMOD 2 ^ w]) (hk : k ≤ w) : a ≡ b [ZMOD 2 ^ k] :=
  h.of_dvd (pow_dvd_pow 2 hk)

theorem bmod_eq_bmod_of_modEq (h : a ≡ b [ZMOD 2 ^ w]) : a.bmod (2 ^ w) = b.bmod (2 ^ w) := by
  rw [← BitVec.toInt_ofInt, ← BitVec.toInt_ofInt, ofInt_eq_ofInt_iff.mpr h]

end Bits

namespace Scalar

variable {target : Target} {ty : Scalar} {a b z : ℤ}

/-- The number of bits of a value. -/
def bits (target : Target) (ty : Scalar) : ℕ := 8 * ty.size target

/-- The integer that stands for `z` in a type: the one in the range of the type that has the same
bits. Types that are wider than a word hold words with sign. -/
def reduce (target : Target) (ty : Scalar) (z : ℤ) : ℤ :=
  if 64 ≤ ty.bits target then z.bmod (2 ^ 64)
  else if ty.isSigned then z.bmod (2 ^ ty.bits target)
  else z % 2 ^ ty.bits target

theorem reduce_modEq (target : Target) (ty : Scalar) (z : ℤ) :
    ty.reduce target z ≡ z [ZMOD 2 ^ min (ty.bits target) 64] := by
  unfold reduce
  split
  · rename_i hwide
    rw [Nat.min_eq_right hwide]
    exact modEq_bmod z 64
  · rw [Nat.min_eq_left (by omega)]
    split
    · exact modEq_bmod z _
    · exact Int.mod_modEq z _

/-- Only the bits of the type matter. -/
theorem reduce_congr (h : a ≡ b [ZMOD 2 ^ min (ty.bits target) 64]) :
    ty.reduce target a = ty.reduce target b := by
  unfold reduce
  split
  · rename_i hwide
    rw [Nat.min_eq_right hwide] at h
    exact bmod_eq_bmod_of_modEq h
  · rw [Nat.min_eq_left (by omega)] at h
    split
    · exact bmod_eq_bmod_of_modEq h
    · exact h

theorem reduce_reduce (target : Target) (ty : Scalar) (z : ℤ) :
    ty.reduce target (ty.reduce target z) = ty.reduce target z :=
  reduce_congr (reduce_modEq target ty z)

/-- The range of a type that is narrower than a word. -/
theorem reduce_range (hpos : 0 < ty.bits target) (hnarrow : ty.bits target < 64) (z : ℤ) :
    if ty.isSigned then -2 ^ (ty.bits target - 1) ≤ ty.reduce target z ∧ ty.reduce target z < 2 ^
    (ty.bits target - 1) else 0 ≤ ty.reduce target z ∧ ty.reduce target z < 2 ^ ty.bits target := by
  obtain ⟨k, hk⟩ : ∃ k, ty.bits target = k + 1 := ⟨ty.bits target - 1, by omega⟩
  have hlarge : (0 : ℤ) < 2 ^ (k + 1) := Int.pow_pos (by decide)
  unfold reduce
  rw [if_neg (Nat.not_le.mpr hnarrow), hk, Nat.add_sub_cancel]
  cases ty.isSigned with
  | true =>
    have hlow := Int.le_bmod (x := z) (m := 2 ^ (k + 1)) (by positivity)
    have hhigh := Int.bmod_lt (x := z) (m := 2 ^ (k + 1)) (by positivity)
    push_cast [pow_succ] at hlow hhigh
    simp only [if_true, pow_succ]
    omega
  | false => exact ⟨Int.emod_nonneg z hlarge.ne', Int.emod_lt_of_pos z hlarge⟩

/-- A reduced integer fits a word. -/
theorem reduce_fits (hpos : 0 < ty.bits target) (z : ℤ) :
    -2 ^ 63 ≤ ty.reduce target z ∧ ty.reduce target z < 2 ^ 63 := by
  by_cases hwide : 64 ≤ ty.bits target
  · rw [reduce, if_pos hwide]
    have hlow := Int.le_bmod (x := z) (m := 2 ^ 64) (by decide)
    have hhigh := Int.bmod_lt (x := z) (m := 2 ^ 64) (by decide)
    omega
  · have hrange := reduce_range hpos (Nat.lt_of_not_le hwide) z
    have hbits : (2 : ℤ) ^ ty.bits target ≤ 2 ^ 63 := pow_le_pow_right₀ (by decide) (by omega)
    have hsign : (2 : ℤ) ^ (ty.bits target - 1) ≤ 2 ^ 63 := pow_le_pow_right₀ (by decide) (by omega)
    split at hrange
    · exact ⟨by omega, by omega⟩
    · exact ⟨by omega, by omega⟩

/-- The word that stands for an integer in a type. -/
def wordOf (target : Target) (ty : Scalar) (z : ℤ) : Int64 := .ofInt (ty.reduce target z)

theorem toInt_wordOf (hpos : 0 < ty.bits target) (z : ℤ) :
    (ty.wordOf target z).toInt = ty.reduce target z :=
  Int64.toInt_ofInt_of_le (reduce_fits hpos z).1 (reduce_fits hpos z).2

theorem wordOf_congr (h : a ≡ b [ZMOD 2 ^ min (ty.bits target) 64]) :
    ty.wordOf target a = ty.wordOf target b := by
  rw [wordOf, wordOf, reduce_congr h]

end Scalar

namespace Folding

variable {target : Target} {ty : Scalar}

/-- Amounts below the width of a word are shifted by as they are. -/
theorem shift_amount (k : Fin 64) : (Int64.ofNat k).toBitVec.smod 64 = BitVec.ofNat 64 k ∧
    (UInt64.ofNat k).toBitVec % 64 = BitVec.ofNat 64 k := by
  revert k
  decide

/-- Shifting to the left and back leaves the lowest bits. -/
theorem toInt_truncate (signed : Bool) {w : ℕ} (hpos : 0 < w) (hw : w < 64) (x : Int64) :
    (truncate signed (64 - w) x).toInt = if signed then x.toInt.bmod (2 ^ w)
    else x.toInt % 2 ^ w := by
  obtain ⟨hsigned, hunsigned⟩ := shift_amount ⟨64 - w, by omega⟩
  simp only at hsigned hunsigned
  have hnat : (BitVec.ofNat 64 (64 - w)).toNat = 64 - w := by
    rw [BitVec.toNat_ofNat]
    omega
  cases signed with
  | true =>
    have hbits :
        (x.toBitVec <<< (64 - w)).sshiftRight (64 - w) = (x.toBitVec.setWidth w).signExtend 64 := by
      refine BitVec.eq_of_getLsbD_eq fun i hi => ?_
      have hmsb : (x.toBitVec <<< (64 - w)).msb = (x.toBitVec.setWidth w).msb := by
        rw [BitVec.msb_eq_getLsbD_last, BitVec.msb_eq_getLsbD_last, BitVec.getLsbD_shiftLeft,
          BitVec.getLsbD_setWidth, show 64 - 1 - (64 - w) = w - 1 by omega]
        simp [show w - 1 < w by omega, show ¬64 - 1 < 64 - w by omega]
      rw [BitVec.getLsbD_sshiftRight, BitVec.getLsbD_signExtend, hmsb, BitVec.getLsbD_shiftLeft,
        BitVec.getLsbD_setWidth, show 64 - w + i - (64 - w) = i by omega]
      by_cases hiw : i < w
      · simp [hi, hiw, show 64 - w + i < 64 by omega]
      · simp [hi, hiw, show ¬64 - w + i < 64 by omega]
    simp only [truncate, if_true]
    rw [← Int64.toInt_toBitVec, Int64.toBitVec_shiftRight, Int64.toBitVec_shiftLeft, hsigned,
      BitVec.sshiftRight', hnat,
      BitVec.shiftLeft_eq', hnat, hbits, BitVec.toInt_signExtend_of_le hw.le,
      setWidth_toBitVec hw.le, BitVec.toInt_ofInt]
  | false =>
    have hbits : (x.toBitVec <<< (64 - w)) >>> (64 - w) = (x.toBitVec.setWidth w).setWidth 64 := by
      refine BitVec.eq_of_getLsbD_eq fun i hi => ?_
      rw [BitVec.getLsbD_ushiftRight, BitVec.getLsbD_shiftLeft, BitVec.getLsbD_setWidth,
        BitVec.getLsbD_setWidth, show 64 - w + i - (64 - w) = i by omega]
      by_cases hiw : i < w
      · simp [hi, hiw, show 64 - w + i < 64 by omega]
      · simp [hiw, show ¬64 - w + i < 64 by omega]
    have hlarge : (0 : ℤ) < 2 ^ w := Int.pow_pos (by decide)
    have hsmall : 2 * (BitVec.ofInt w x.toInt).toNat < 2 ^ 64 := by
      have hlt := (BitVec.ofInt w x.toInt).isLt
      have hle : 2 ^ w ≤ 2 ^ 63 := Nat.pow_le_pow_right (by decide) (by omega)
      omega
    have hword : ((BitVec.ofInt w x.toInt).setWidth 64).toNat = (BitVec.ofInt w x.toInt).toNat := by
      rw [BitVec.toNat_setWidth, Nat.mod_eq_of_lt (by omega)]
    simp only [truncate, Bool.false_eq_true, if_false]
    rw [← Int64.toInt_toBitVec, UInt64.toBitVec_toInt64, UInt64.toBitVec_shiftRight,
      UInt64.toBitVec_shiftLeft,
      Int64.toBitVec_toUInt64, hunsigned, BitVec.shiftLeft_eq', BitVec.ushiftRight_eq', hnat, hbits,
      setWidth_toBitVec hw.le,
      BitVec.toInt_eq_toNat_of_lt (hword ▸ hsmall), hword, BitVec.toNat_ofInt, Int.toNat_of_nonneg]
    · push_cast
      rfl
    · push_cast
      exact Int.emod_nonneg _ hlarge.ne'

/-- Cutting a word down to a type that has a width. -/
theorem wrap_eq (h : 0 < ty.size target ∧ ty.size target * 8 < Size.limit)
    (hint : ty.isFloat = false) (x : Int64) :
    (wrap target (some ty) x : Attempt ε Int64) = .ok (ty.wordOf target x.toInt) := by
  have hpos : 0 < ty.bits target := Nat.mul_pos (by decide) h.1
  have hcomm : ty.size target * 8 = ty.bits target := Nat.mul_comm _ _
  simp only [wrap, hint, Bool.false_eq_true, if_false, Size.mul_eq_ok_iff.mpr ⟨rfl, h.2⟩,
    Attempt.ok_bind, hcomm]
  split
  · rename_i hwide
    refine congrArg Except.ok (Int64.toInt_inj.mp ?_)
    rw [Scalar.toInt_wordOf hpos, Scalar.reduce, if_pos hwide]
    exact (Int64.toInt_bmod x).symm
  · rename_i hnarrow
    rw [if_neg hpos.ne']
    refine congrArg Except.ok (Int64.toInt_inj.mp ?_)
    rw [Scalar.toInt_wordOf hpos, Scalar.reduce, if_neg hnarrow,
      toInt_truncate _ hpos (Nat.lt_of_not_le hnarrow)]

theorem wrapped_eq (h : 0 < ty.size target ∧ ty.size target * 8 < Size.limit)
    (hint : ty.isFloat = false) (x : Int64) :
    (wrapped target (some ty) (some x) : Attempt ε (Option Literal)) =
    .ok (some (.int (ty.wordOf target x.toInt))) := by
  rw [wrapped, wrap_eq h hint]
  rfl

/-! ### Sums, products and bitwise operations -/

end Folding

/-- The exact result of an operation that can be carried out bit by bit from the lowest one on. -/
def Opcode.exact? : Opcode → List ℤ → Option ℤ
  | .add, [x, y] => some (x + y)
  | .sub, [x, y] => some (x - y)
  | .mul, [x, y] => some (x * y)
  | .neg, [x] => some (-x)
  | .and, [x, y] => some (x.land y)
  | .or, [x, y] => some (x.lor y)
  | .xor, [x, y] => some (x.xor y)
  | _, _ => none

namespace Folding

variable {target : Target} {ty : Scalar} {code : Opcode} {z : ℤ}

/-- Operands that agree in their lowest bits have results that do. -/
theorem exact?_congr {w : ℕ} {xs ys : List ℤ} (hxs : Forall₂ (fun x y => x ≡ y [ZMOD 2 ^ w]) xs ys)
    (hz : code.exact? xs = some z) : ∃ z', code.exact? ys = some z' ∧ z ≡ z' [ZMOD 2 ^ w] := by
  unfold Opcode.exact? at hz
  split at hz
  case h_8 => cases hz
  case h_4 x =>
    obtain ⟨y, _, hxy, htail, rfl⟩ := forall₂_cons_left_iff.mp hxs
    obtain rfl := forall₂_nil_left_iff.mp htail
    exact ⟨_, rfl, some.inj hz ▸ hxy.neg⟩
  all_goals
    rename_i x x'
    obtain ⟨y, _, hxy, htail, rfl⟩ := forall₂_cons_left_iff.mp hxs
    obtain ⟨y', _, hxy', htail', rfl⟩ := forall₂_cons_left_iff.mp htail
    obtain rfl := forall₂_nil_left_iff.mp htail'
    obtain rfl := some.inj hz
    refine ⟨_, rfl, ?_⟩
  · exact hxy.add hxy'
  · exact hxy.sub hxy'
  · exact hxy.mul hxy'
  all_goals
    rw [modEq_iff_testBit] at hxy hxy' ⊢
    intro i hi
  · rw [Int.testBit_land, Int.testBit_land, hxy i hi, hxy' i hi]
  · rw [Int.testBit_lor, Int.testBit_lor, hxy i hi, hxy' i hi]
  · rw [Int.testBit_lxor, Int.testBit_lxor, hxy i hi, hxy' i hi]

/-- A word holds the lowest bits of an integer. -/
theorem toInt_modEq_of_testBit {x : Int64} (h : ∀ i < 64, x.toBitVec.getLsbD i = z.testBit i) :
    x.toInt ≡ z [ZMOD 2 ^ 64] := by
  refine modEq_iff_testBit.mpr fun i hi => ?_
  rw [← h i hi, ← BitVec.ofInt_int64ToInt, getLsbD_ofInt]
  simp [hi]

theorem testBit_toInt (x : Int64) {i : ℕ} (hi : i < 64) :
    x.toInt.testBit i = x.toBitVec.getLsbD i := by
  rw [← BitVec.ofInt_int64ToInt, getLsbD_ofInt]
  simp [hi]

/-- The value of such an operation is the exact result in the type. -/
theorem evaluate_of_exact (h : target.Sized) (hint : ty.isFloat = false) {xs : List Int64}
    (hz : code.exact? (xs.map Int64.toInt) = some z) :
    (evaluate target (some ty) code (xs.map .int) : Attempt ε (Option Literal)) =
    .ok (some (.int (ty.wordOf target z))) := by
  -- it is enough that the word agrees with the exact result in all its bits
  have hword : ∀ v : Int64, v.toInt ≡ z [ZMOD 2 ^ 64] →
      (wrapped target (some ty) (some v) : Attempt ε (Option Literal)) =
      .ok (some (.int (ty.wordOf target z))) := fun v hv => by
    rw [wrapped_eq (h.size ty) hint, Scalar.wordOf_congr (modEq_of_le hv (Nat.min_le_right _ _))]
  have hbinary : ∀ x y v : Int64, compareInts code x y = none → combineInts code x y = some v →
      v.toInt ≡ z [ZMOD 2 ^ 64] →
      (evaluate target (some ty) code [.int x, .int y] : Attempt ε (Option Literal)) =
      .ok (some (.int (ty.wordOf target z))) :=
    fun x y v hcompare hcombine hv => by
      rw [evaluate, hcompare, hcombine]
      exact hword v hv
  unfold Opcode.exact? at hz
  split at hz
  case h_8 => cases hz
  case h_4 a hxs =>
    obtain ⟨x, rfl, rfl⟩ := map_eq_singleton_iff.mp hxs
    obtain rfl := some.inj hz
    exact hword (-x) (Int64.toInt_neg x ▸ modEq_bmod _ 64)
  all_goals
    rename_i a b hxs
    obtain ⟨x, _, rfl, rfl, htail⟩ := map_eq_cons_iff.mp hxs
    obtain ⟨y, rfl, rfl⟩ := map_eq_singleton_iff.mp htail
    obtain rfl := some.inj hz
    refine hbinary x y _ rfl rfl ?_
  · exact Int64.toInt_add x y ▸ modEq_bmod _ 64
  · exact Int64.toInt_sub x y ▸ modEq_bmod _ 64
  · exact Int64.toInt_mul x y ▸ modEq_bmod _ 64
  · exact toInt_modEq_of_testBit fun i hi => by simp [Int.testBit_land, testBit_toInt, hi]
  · exact toInt_modEq_of_testBit fun i hi => by simp [Int.testBit_lor, testBit_toInt, hi]
  · exact toInt_modEq_of_testBit fun i hi => by simp [Int.testBit_lxor, testBit_toInt, hi]

/-- Sums, products and bitwise operations wrap around. For every target whose types have a width,
every integer type and all operands there is a value. It agrees with the exact result in the bits of
the type, lies in the range of the type, stays as it is when it is cut down again, and is the same
for operands that agree in the bits of the type. -/
theorem evaluate_wraps_exact (h : target.Sized) (hint : ty.isFloat = false) {xs : List Int64}
    {z : ℤ} (hz : code.exact? (xs.map Int64.toInt) = some z) :
    ∃ v : Int64, (evaluate target (some ty) code (xs.map .int) : Attempt ε (Option Literal)) =
        .ok (some (.int v)) ∧
      v.toInt ≡ z [ZMOD 2 ^ min (ty.bits target) 64] ∧
      (ty.bits target < 64 →
        if ty.isSigned then -2 ^ (ty.bits target - 1) ≤ v.toInt ∧ v.toInt < 2 ^ (ty.bits target - 1)
        else 0 ≤ v.toInt ∧ v.toInt < 2 ^ ty.bits target) ∧
      (wrap target (some ty) v : Attempt ε Int64) = .ok v ∧
      ∀ ys : List Int64,
        List.Forall₂ (fun x y => x.toInt ≡ y.toInt [ZMOD 2 ^ ty.bits target]) xs ys →
        (evaluate target (some ty) code (ys.map .int) : Attempt ε (Option Literal)) =
          .ok (some (.int v)) := by
  have hpos : 0 < ty.bits target := Nat.mul_pos (by decide) (h.size ty).1
  have hvalue := Scalar.toInt_wordOf hpos z
  refine ⟨ty.wordOf target z, evaluate_of_exact h hint hz, ?_, fun hnarrow => ?_, ?_,
    fun ys hys => ?_⟩
  · rw [hvalue]
    exact Scalar.reduce_modEq target ty z
  · rw [hvalue]
    exact Scalar.reduce_range hpos hnarrow z
  · rw [wrap_eq (h.size ty) hint, hvalue, Scalar.wordOf, Scalar.reduce_reduce, ← Scalar.wordOf]
  · have hpairs : Forall₂ (fun x y => x ≡ y [ZMOD 2 ^ ty.bits target]) (xs.map Int64.toInt)
        (ys.map Int64.toInt) :=
      forall₂_map_left_iff.mpr (forall₂_map_right_iff.mpr hys)
    obtain ⟨z', hz', hsame⟩ := exact?_congr hpairs hz
    rw [evaluate_of_exact h hint hz', Scalar.wordOf_congr (modEq_of_le hsame (Nat.min_le_left _ _))]

/-- A product in a signed type of three bytes. -/
theorem evaluate_wraps_exact_product :
    let target : Target := ⟨3, 5⟩
    target.Sized ∧ Scalar.sint.isFloat = false ∧
      ∃ v : Int64, (evaluate target (some .sint) .mul [.int 8388607, .int 2] :
          Query (Option Literal)) = .ok (some (.int v)) ∧
        v.toInt = -2 ∧ v.toInt ≡ 8388607 * 2 [ZMOD 2 ^ 24] := by
  have hsized : (⟨3, 5⟩ : Target).Sized := by
    unfold Target.Sized
    decide
  have hint : Scalar.sint.isFloat = false := rfl
  have hexact :
    Opcode.mul.exact? (([8388607, 2] : List Int64).map Int64.toInt) = some (8388607 * 2) := rfl
  refine ⟨hsized, hint, ?_⟩
  obtain ⟨v, hv, hmod, hrange, -⟩ := evaluate_wraps_exact hsized hint hexact
  have hbits : Scalar.sint.bits ⟨3, 5⟩ = 24 := rfl
  rw [hbits] at hmod hrange
  have hrange : -2 ^ 23 ≤ v.toInt ∧ v.toInt < 2 ^ 23 := hrange (by decide)
  have hmod : v.toInt ≡ 8388607 * 2 [ZMOD 2 ^ 24] := hmod
  refine ⟨v, hv, ?_, hmod⟩
  unfold Int.ModEq at hmod
  omega

end Folding

/-! ### Quotients, shifts to the right and comparisons -/

namespace Opcode

variable {w : ℕ}

/-- Whether an operation reads its operands with sign, if that matters. -/
def readsSign? : Opcode → Option Bool
  | .divS | .remS | .shrS | .ltS | .leS | .gtS | .geS => some true
  | .divU | .remU | .shrU | .ltU | .leU | .gtU | .geU => some false
  | _ => none

/-- A quotient, a remainder or a shift to the right of words of `w` bits. There is no quotient by
zero. -/
def combineWords : Opcode → BitVec w → BitVec w → Option (BitVec w)
  | .divS, x, y => if y = 0 then none else some (x.sdiv y)
  | .divU, x, y => if y = 0 then none else some (x.udiv y)
  | .remS, x, y => if y = 0 then none else some (x.srem y)
  | .remU, x, y => if y = 0 then none else some (x.umod y)
  | .shrS, x, y => some (x.sshiftRight y.toNat)
  | .shrU, x, y => some (x >>> y.toNat)
  | _, _, _ => none

/-- A comparison of words of `w` bits. -/
def compareWords : Opcode → BitVec w → BitVec w → Option Bool
  | .ltS, x, y => some (x.slt y)
  | .leS, x, y => some (x.sle y)
  | .gtS, x, y => some (y.slt x)
  | .geS, x, y => some (y.sle x)
  | .ltU, x, y => some (x.ult y)
  | .leU, x, y => some (x.ule y)
  | .gtU, x, y => some (y.ult x)
  | .geU, x, y => some (y.ule x)
  | _, _, _ => none

end Opcode

/-- The bits of a word that a type has. -/
def Scalar.bitsOf (target : Target) (ty : Scalar) (x : Int64) : BitVec (ty.bits target) :=
    .ofInt _ x.toInt

/-- What a machine with words of the width of the type delivers for two operands. -/
def Scalar.machineValue (target : Target) (ty : Scalar) (code : Opcode) (x y : Int64) :
    Option Literal :=
  match code.compareWords (ty.bitsOf target x) (ty.bitsOf target y) with
  | some b => some (Folding.truthLiteral b)
  | none =>
    (code.combineWords (ty.bitsOf target x) (ty.bitsOf target y)).map fun v =>
      .int (ty.wordOf target v.toInt)

namespace Folding

variable {target : Target} {ty : Scalar} {code : Opcode} {x y : Int64} {signed : Bool}

/-- Whether a word holds the integer that an operation reads from the bits of the type. -/
def ReadsBack (target : Target) (ty : Scalar) : Bool → Int64 → Prop
  | true, x => (ty.bitsOf target x).toInt = x.toInt
  | false, x => (ty.bitsOf target x).toNat = x.toUInt64.toNat

theorem toNat_toUInt64 (x : Int64) : x.toUInt64.toNat = (x.toInt % 2 ^ 64).toNat := by
  rw [← UInt64.toNat_toBitVec, Int64.toBitVec_toUInt64, ← BitVec.ofInt_int64ToInt,
    BitVec.toNat_ofInt]
  rfl

/-- Words that the cutting down to a type produces are read back by operations that go with the
type, and by all operations if the type has the width of a word or the top bit is not set. -/
theorem readsBack (h : 0 < ty.size target ∧ ty.size target * 8 < Size.limit)
    (hint : ty.isFloat = false) (hwidth : ty.bits target ≤ 64) {u : Int64}
    (hx : (wrap target (some ty) u : Attempt ε Int64) = .ok x) (hfits : ty.bits target = 64 ∨
      ty.isSigned = signed ∨ 0 ≤ x.toInt ∧ x.toInt < 2 ^ (ty.bits target - 1)) :
    ReadsBack target ty signed x := by
  have hpos : 0 < ty.bits target := Nat.mul_pos (by decide) h.1
  have hreduced : ty.reduce target x.toInt = x.toInt := by
    rw [wrap_eq h hint, Except.ok.injEq] at hx
    rw [← hx, Scalar.toInt_wordOf hpos, Scalar.reduce_reduce]
  have hlow := Int64.le_toInt x
  have hhigh := Int64.toInt_lt x
  cases signed with
  | true =>
    show (BitVec.ofInt (ty.bits target) x.toInt).toInt = x.toInt
    rw [BitVec.toInt_ofInt]
    rcases hfits with hword | hsigned | hsmall
    · rw [hword]
      exact Int64.toInt_bmod x
    · rw [Scalar.reduce, hsigned, if_pos rfl] at hreduced
      split at hreduced
      · rw [show ty.bits target = 64 by omega]
        exact hreduced
      · exact hreduced
    · obtain ⟨k, hk⟩ : ∃ k, ty.bits target = k + 1 := ⟨ty.bits target - 1, by omega⟩
      rw [hk, Nat.add_sub_cancel] at hsmall
      rw [hk]
      refine Int.bmod_eq_of_le ?_ ?_ <;> push_cast [pow_succ] <;> omega
  | false =>
    show (BitVec.ofInt (ty.bits target) x.toInt).toNat = x.toUInt64.toNat
    rw [BitVec.toNat_ofInt, toNat_toUInt64]
    have hplain : 0 ≤ x.toInt → x.toInt < 2 ^ ty.bits target →
        (x.toInt % ↑(2 ^ ty.bits target)).toNat = (x.toInt % 2 ^ 64).toNat := fun hnonneg hlt => by
      rw [Int.emod_eq_of_lt hnonneg (by exact_mod_cast hlt), Int.emod_eq_of_lt hnonneg (by omega)]
    rcases hfits with hword | hunsigned | hsmall
    · rw [hword]
      rfl
    · by_cases hword : ty.bits target = 64
      · rw [hword]
        rfl
      · have hrange := Scalar.reduce_range hpos (by omega) x.toInt
        rw [hunsigned, hreduced] at hrange
        exact hplain hrange.1 hrange.2
    · exact hplain hsmall.1 (Int.lt_of_lt_of_le hsmall.2 (pow_le_pow_right₀ (by decide) (by omega)))

/-- Words whose integers are congruent in the bits of the type stand for the same integer in it. -/
theorem wordOf_toInt_eq (hwidth : ty.bits target ≤ 64) {z : ℤ} {v : BitVec (ty.bits target)}
    (hx : x.toInt ≡ z [ZMOD 2 ^ 64]) (hv : v.toInt ≡ z [ZMOD 2 ^ ty.bits target]) :
    ty.wordOf target x.toInt = ty.wordOf target v.toInt := by
  refine Scalar.wordOf_congr ?_
  rw [Nat.min_eq_left hwidth]
  exact (modEq_of_le hx hwidth).trans hv.symm

theorem toInt_modEq_toNat {w : ℕ} (v : BitVec w) : v.toInt ≡ v.toNat [ZMOD 2 ^ w] := by
  rw [BitVec.toInt_eq_toNat_bmod]
  exact modEq_bmod _ _

theorem toInt64_modEq_toNat (u : UInt64) : u.toInt64.toInt ≡ u.toNat [ZMOD 2 ^ 64] := by
  rw [← Int64.toInt_toBitVec, UInt64.toBitVec_toInt64]
  exact toInt_modEq_toNat u.toBitVec

/-- The divisor is zero if its bits are. -/
theorem ReadsBack.eq_zero_iff (h : ReadsBack target ty signed y) :
    ty.bitsOf target y = 0 ↔ y = 0 := by
  cases signed with
  | true =>
    rw [← BitVec.toInt_inj, show (ty.bitsOf target y).toInt = y.toInt from h, ← Int64.toInt_inj]
    simp
  | false =>
    rw [← BitVec.toNat_inj, show (ty.bitsOf target y).toNat = y.toUInt64.toNat from h,
      ← Int64.toBitVec_inj, ← BitVec.toNat_inj]
    rfl

/-- A word and a result of the machine that hold the same integer as far as they can. -/
def Matches (target : Target) (ty : Scalar) (v : Int64) (b : BitVec (ty.bits target)) : Prop :=
  ∃ z : ℤ, v.toInt ≡ z [ZMOD 2 ^ 64] ∧ b.toInt ≡ z [ZMOD 2 ^ ty.bits target]

variable (h : 0 < ty.size target ∧ ty.size target * 8 < Size.limit) (hint : ty.isFloat = false)
    (hwidth : ty.bits target ≤ 64)
include h hint hwidth

/-- An operation whose words match the results of the machine is evaluated as the machine does. -/
theorem evaluate_of_matches (hcompare : compareInts code x y = none)
    (hcompare' : code.compareWords (ty.bitsOf target x) (ty.bitsOf target y) = none)
    (hmatch : Option.Rel (Matches target ty) (combineInts code x y)
      (code.combineWords (ty.bitsOf target x) (ty.bitsOf target y))) :
    (evaluate target (some ty) code [.int x, .int y] : Attempt ε (Option Literal)) =
    .ok (ty.machineValue target code x y) := by
  rw [evaluate, hcompare, Scalar.machineValue, hcompare']
  generalize combineInts code x y = found at hmatch
  generalize code.combineWords (ty.bitsOf target x) (ty.bitsOf target y) = result at hmatch
  cases hmatch with
  | none => rfl
  | some hmatch =>
    obtain ⟨z, hword, hbits⟩ := hmatch
    simp [wrapped_eq h hint, wordOf_toInt_eq hwidth hword hbits]

omit h hint hwidth in
/-- A comparison on which words and machine agree. -/
theorem evaluate_of_compare {b : Bool} (hcompare : compareInts code x y = some b)
    (hcompare' : code.compareWords (ty.bitsOf target x) (ty.bitsOf target y) = some b) :
    (evaluate target (some ty) code [.int x, .int y] : Attempt ε (Option Literal)) =
    .ok (ty.machineValue target code x y) := by
  rw [evaluate, hcompare, Scalar.machineValue, hcompare']
  rfl

omit h hint hwidth in
/-- An amount to shift by, read from the bits of a type. -/
theorem exists_amount (hwidth : ty.bits target ≤ 64)
    (hshift : 0 ≤ y.toInt ∧ y.toInt < ty.bits target) :
    ∃ k : Fin 64, y = Int64.ofNat k ∧ (ty.bitsOf target y).toNat = k := by
  refine ⟨⟨y.toInt.toNat, by omega⟩, Int64.toInt_inj.mp ?_, ?_⟩
  · rw [Int64.toInt_ofNat_of_lt (by simp only; omega)]
    simp only
    omega
  · have hlt : ty.bits target < 2 ^ ty.bits target := Nat.lt_two_pow_self
    rw [Scalar.bitsOf, BitVec.toNat_ofInt, Int.emod_eq_of_lt hshift.1 (by omega)]

/-- Operations with sign on operands that are read back. The quotient of the least word by minus one
is not evaluated. -/
theorem evaluate_signed (hcode : code.readsSign? = some true) (hx : ReadsBack target ty true x)
    (hy : ReadsBack target ty true y) (hshift : code = .shrS → 0 ≤ y.toInt ∧
      y.toInt < ty.bits target)
    (hfits : code = .divS ∨ code = .remS → ¬(x = Int64.minValue ∧ y = -1)) :
    (evaluate target (some ty) code [.int x, .int y] : Attempt ε (Option Literal)) =
    .ok (ty.machineValue target code x y) := by
  have hx' : (ty.bitsOf target x).toInt = x.toInt := hx
  have hy' : (ty.bitsOf target y).toInt = y.toInt := hy
  have hzero := hy.eq_zero_iff
  have hless : ∀ {a b : Int64}, ReadsBack target ty true a → ReadsBack target ty true b →
      (ty.bitsOf target a).slt (ty.bitsOf target b) = decide (a < b) ∧
      (ty.bitsOf target a).sle (ty.bitsOf target b) = decide (a ≤ b) := fun {a b} ha hb => by
    have ha' : (ty.bitsOf target a).toInt = a.toInt := ha
    have hb' : (ty.bitsOf target b).toInt = b.toInt := hb
    simp [BitVec.slt, BitVec.sle, ha', hb', Int64.lt_iff_toInt_lt, Int64.le_iff_toInt_le]
  cases code with
  | divS =>
    refine evaluate_of_matches h hint hwidth rfl rfl ?_
    simp only [combineInts, quotient?, Opcode.combineWords, hzero, hfits (Or.inl rfl), or_false]
    split
    · exact .none
    · refine .some ⟨x.toInt.tdiv y.toInt, Int64.toInt_div x y ▸ modEq_bmod _ 64, ?_⟩
      rw [BitVec.toInt_sdiv, hx', hy']
      exact modEq_bmod _ _
  | remS =>
    refine evaluate_of_matches h hint hwidth rfl rfl ?_
    simp only [combineInts, remainder?, Opcode.combineWords, hzero, hfits (Or.inr rfl), or_false]
    split
    · exact .none
    · refine .some ⟨x.toInt.tmod y.toInt, Int64.toInt_mod x y ▸ Int.ModEq.refl _, ?_⟩
      rw [BitVec.toInt_srem, hx', hy']
  | shrS =>
    obtain ⟨k, rfl, hk⟩ := exists_amount hwidth (hshift rfl)
    refine evaluate_of_matches h hint hwidth rfl rfl (.some ⟨x.toInt >>> (k : ℕ), ?_, ?_⟩)
    · rw [← Int64.toInt_toBitVec, Int64.toBitVec_shiftRight, (shift_amount k).1,
        BitVec.toInt_sshiftRight', Int64.toInt_toBitVec,
        BitVec.toNat_ofNat, Nat.mod_eq_of_lt (by omega)]
    · rw [hk, BitVec.toInt_sshiftRight, hx']
  | ltS => exact evaluate_of_compare rfl (congrArg some (hless hx hy).1)
  | leS => exact evaluate_of_compare rfl (congrArg some (hless hx hy).2)
  | gtS => exact evaluate_of_compare rfl (congrArg some (hless hy hx).1)
  | geS => exact evaluate_of_compare rfl (congrArg some (hless hy hx).2)
  | _ => cases hcode

/-- Operations without sign on operands that are read back. -/
theorem evaluate_unsigned (hcode : code.readsSign? = some false) (hx : ReadsBack target ty false x)
    (hy : ReadsBack target ty false y) (hshift : code = .shrU → 0 ≤ y.toInt ∧
      y.toInt < ty.bits target) :
    (evaluate target (some ty) code [.int x, .int y] : Attempt ε (Option Literal)) =
    .ok (ty.machineValue target code x y) := by
  have hx' : (ty.bitsOf target x).toNat = x.toUInt64.toNat := hx
  have hy' : (ty.bitsOf target y).toNat = y.toUInt64.toNat := hy
  have hzero := hy.eq_zero_iff
  have hless : ∀ {a b : Int64}, ReadsBack target ty false a → ReadsBack target ty false b →
      (ty.bitsOf target a).ult (ty.bitsOf target b) = decide (a.toUInt64 < b.toUInt64) ∧
      (ty.bitsOf target a).ule (ty.bitsOf target b) = decide (a.toUInt64 ≤ b.toUInt64) :=
      fun {a b} ha hb => by
    have ha' : (ty.bitsOf target a).toNat = a.toUInt64.toNat := ha
    have hb' : (ty.bitsOf target b).toNat = b.toUInt64.toNat := hb
    simp [BitVec.ult, BitVec.ule, ha', hb', UInt64.lt_iff_toNat_lt, UInt64.le_iff_toNat_le]
  -- both results are the same natural number
  have hmatch : ∀ {u : UInt64} {b : BitVec (ty.bits target)}, b.toNat = u.toNat →
      Matches target ty u.toInt64 b :=
    fun {u b} hsame => ⟨u.toNat, toInt64_modEq_toNat u, hsame ▸ toInt_modEq_toNat b⟩
  cases code with
  | divU =>
    refine evaluate_of_matches h hint hwidth rfl rfl ?_
    simp only [combineInts, Opcode.combineWords, hzero]
    split
    · exact .none
    · exact .some (hmatch (by rw [UInt64.toNat_div, BitVec.udiv_eq, BitVec.toNat_udiv, hx', hy']))
  | remU =>
    refine evaluate_of_matches h hint hwidth rfl rfl ?_
    simp only [combineInts, Opcode.combineWords, hzero]
    split
    · exact .none
    · exact .some (hmatch (by rw [UInt64.toNat_mod, BitVec.umod_eq, BitVec.toNat_umod, hx', hy']))
  | shrU =>
    obtain ⟨k, rfl, hk⟩ := exists_amount hwidth (hshift rfl)
    refine evaluate_of_matches h hint hwidth rfl rfl (.some (hmatch ?_))
    show _ = (x.toUInt64 >>> (Int64.ofNat k).toUInt64).toBitVec.toNat
    rw [hk, BitVec.toNat_ushiftRight, hx', UInt64.toBitVec_shiftRight, Int64.toUInt64_ofNat',
      (shift_amount k).2,
      BitVec.ushiftRight_eq', BitVec.toNat_ushiftRight, BitVec.toNat_ofNat,
      Nat.mod_eq_of_lt (by omega)]
    rfl
  | ltU => exact evaluate_of_compare rfl (congrArg some (hless hx hy).1)
  | leU => exact evaluate_of_compare rfl (congrArg some (hless hx hy).2)
  | gtU => exact evaluate_of_compare rfl (congrArg some (hless hy hx).1)
  | geU => exact evaluate_of_compare rfl (congrArg some (hless hy hx).2)
  | _ => cases hcode

omit h hint hwidth

/-- Quotients, remainders, shifts to the right and comparisons of words that the cutting down to a
type has produced are those of a machine with words of the width of the type, if the type has the
width of a word, if the operation reads its operands with sign just if the type has one, or if
neither operand has its top bit set. A quotient that does not fit a word is not evaluated. -/
theorem evaluate_eq_machineValue (hpos : 8 ≤ ty.bits target) (hwidth : ty.bits target ≤ 64)
    (hint : ty.isFloat = false) (hcode : code.readsSign? = some signed) {u v : Int64}
    (hx : (wrap target (some ty) u : Query Int64) = .ok x)
    (hy : (wrap target (some ty) v : Query Int64) = .ok y)
    (hshift : code = .shrS ∨ code = .shrU → 0 ≤ y.toInt ∧ y.toInt < ty.bits target)
    (hfits : ty.bits target = 64 ∨ ty.isSigned = signed ∨
      (0 ≤ x.toInt ∧ x.toInt < 2 ^ (ty.bits target - 1)) ∧
        0 ≤ y.toInt ∧ y.toInt < 2 ^ (ty.bits target - 1)) :
    (evaluate target (some ty) code [.int x, .int y] : Query (Option Literal)) =
      .ok (if (code = .divS ∨ code = .remS) ∧ x = Int64.minValue ∧ y = -1 then none
        else ty.machineValue target code x y) := by
  have hcomm : ty.bits target = ty.size target * 8 := Nat.mul_comm _ _
  have hlimit : 64 < Size.limit := by decide
  have hsized : 0 < ty.size target ∧ ty.size target * 8 < Size.limit := by omega
  have hx' : ReadsBack target ty signed x :=
    readsBack hsized hint hwidth hx (hfits.imp_right (Or.imp_right And.left))
  have hy' : ReadsBack target ty signed y :=
    readsBack hsized hint hwidth hy (hfits.imp_right (Or.imp_right And.right))
  split
  · rename_i hoverflow
    obtain ⟨rfl | rfl, rfl, rfl⟩ := hoverflow <;> rfl
  · rename_i hfine
    cases signed with
    | true =>
      exact evaluate_signed hsized hint hwidth hcode hx' hy' (fun heq => hshift (Or.inl heq))
        fun hdivision hover => hfine ⟨hdivision, hover⟩
    | false =>
      exact evaluate_unsigned hsized hint hwidth hcode hx' hy' fun heq => hshift (Or.inr heq)

/-- A comparison with sign of two signed bytes, one of them negative. -/
theorem evaluate_eq_machineValue_byte :
    (wrap {} (some .s8) 255 : Query Int64) = .ok (-1) ∧
      (wrap {} (some .s8) 1 : Query Int64) = .ok 1 ∧
      Scalar.s8.machineValue {} .ltS (-1) 1 = some (.int 1) ∧
      (evaluate {} (some .s8) .ltS [.int (-1), .int 1] : Query (Option Literal)) =
        .ok (some (.int 1)) := by
  have hx : (wrap {} (some .s8) 255 : Query Int64) = .ok (-1) := rfl
  have hy : (wrap {} (some .s8) 1 : Query Int64) = .ok 1 := rfl
  have hcode : Opcode.ltS.readsSign? = some true := rfl
  exact ⟨hx, hy, rfl, evaluate_eq_machineValue (by decide) (by decide) rfl hcode hx hy (by simp)
    (Or.inr (Or.inl rfl))⟩

/-- An unsigned byte with its top bit set is compared with sign as if it were positive, and a
negative signed byte is divided without sign as if it were a whole word. -/
theorem evaluate_misreads_top_bit :
    (wrap {} (some .i8) 255 : Query Int64) = .ok 255 ∧
      (wrap {} (some .s8) (-1) : Query Int64) = .ok (-1) ∧
      (evaluate {} (some .i8) .ltS [.int 255, .int 1] : Query (Option Literal)) =
        .ok (some (.int 0)) ∧ Scalar.i8.machineValue {} .ltS 255 1 = some (.int 1) ∧
      (evaluate {} (some .s8) .divU [.int (-1), .int 2] : Query (Option Literal)) =
        .ok (some (.int (-1))) ∧ Scalar.s8.machineValue {} .divU (-1) 2 = some (.int 127) :=
  ⟨rfl, rfl, rfl, rfl, rfl, rfl⟩

end Folding

end CoroutineIR
