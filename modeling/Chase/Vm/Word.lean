import Chase.Evm.Basic
import Mathlib.Tactic.Ring

/-!
# The arithmetic of words

The instructions of the machine compute with 256-bit words. Signed instructions go through `I256`, a
sign and a magnitude, and come back to a word in two's complement; `EXP` and `BYTE` are loops;
`ADDMOD` and `MULMOD` compute with 512 bits.

The second part says what they compute. A signed instruction is the operation of the library on the
same bits: division and remainder truncate towards zero, with the one overflow, `-2 ^ 255` by `-1`,
wrapping (`sdiv_eq`, `srem_eq`), the comparisons are those of signed numbers, `SAR` rounds down
(`sar_eq`), and `SIGNEXTEND` reads the low bytes as a signed number (`signextend_eq`). `ADDMOD` and
`MULMOD` do not wrap, `EXP` is the power modulo `2 ^ 256`, and `BYTE` takes out a byte (`byte_eq`).
-/

namespace Chase.Vm

/-! ## Signed numbers -/

/-- `Sign`. -/
inductive Sign where
  | plus
  | minus
  | zero
  deriving DecidableEq, Repr

/-- `SIGN_BIT_MASK`: every bit except the highest one. -/
def signBitMask : U256 := BitVec.ofNat 256 (2 ^ 255 - 1)

/-- `I256`. -/
structure I256 where
  sign : Sign
  value : U256
  deriving DecidableEq, Repr

namespace I256

/-- `I256::zero`. -/
def zero : I256 := ⟨.zero, 0#256⟩

/-- `I256::min_value`. -/
def minValue : I256 := ⟨.minus, (BitVec.allOnes 256 &&& signBitMask) + 1#256⟩

/-- `From<U256> for I256`. -/
def ofU256 (val : U256) : I256 :=
  if val = 0#256 then zero
  else if val &&& signBitMask = val then ⟨.plus, val⟩
  else ⟨.minus, ~~~val + 1#256⟩

/-- `From<I256> for U256`. -/
def toU256 (i : I256) : U256 :=
  match i.sign with
  | .zero => 0#256
  | .plus => i.value
  | .minus => ~~~i.value + 1#256

/-- `cmp`. -/
def cmp (i j : I256) : Ordering :=
  match i.sign, j.sign with
  | .zero, .zero => .eq
  | .zero, .plus => .lt
  | .zero, .minus => .gt
  | .minus, .zero => .lt
  | .minus, .plus => .lt
  | .minus, .minus => (compare i.value.toNat j.value.toNat).swap
  | .plus, .minus => .gt
  | .plus, .zero => .gt
  | .plus, .plus => compare i.value.toNat j.value.toNat

/-- `Div for I256`. -/
def div (i j : I256) : I256 :=
  if j = zero then zero
  else if i = minValue ∧ j.value = 1#256 then minValue
  else
    let d := (i.value / j.value) &&& signBitMask
    if d = 0#256 then zero
    else
      match i.sign, j.sign with
      | .zero, .plus | .plus, .zero | .zero, .zero | .plus, .plus | .minus, .minus => ⟨.plus, d⟩
      | .zero, .minus | .plus, .minus | .minus, .zero | .minus, .plus => ⟨.minus, d⟩

/-- `Rem for I256`. -/
def rem (i j : I256) : I256 :=
  let r := (i.value % j.value) &&& signBitMask
  if r = 0#256 then zero else ⟨i.sign, r⟩

end I256

/-! ## The instructions -/

/-- A comparison as a word. -/
def boolWord (b : Bool) : U256 := if b then 1#256 else 0#256

/-- `arithmetic::div`. -/
def div (op1 op2 : U256) : U256 := if op2 = 0#256 then 0#256 else op1 / op2

/-- `arithmetic::sdiv`. -/
def sdiv (op1 op2 : U256) : U256 := ((I256.ofU256 op1).div (I256.ofU256 op2)).toU256

/-- `arithmetic::rem`. -/
def rem (op1 op2 : U256) : U256 := if op2 = 0#256 then 0#256 else op1 % op2

/-- `arithmetic::srem`. -/
def srem (op1 op2 : U256) : U256 :=
  if op2 = 0#256 then 0#256 else ((I256.ofU256 op1).rem (I256.ofU256 op2)).toU256

/-- `arithmetic::addmod`: the sum has 512 bits. -/
def addmod (op1 op2 op3 : U256) : U256 :=
  if op3 = 0#256 then 0#256
  else ((op1.setWidth 512 + op2.setWidth 512) % op3.setWidth 512).setWidth 256

/-- `arithmetic::mulmod`: the product has 512 bits. -/
def mulmod (op1 op2 op3 : U256) : U256 :=
  if op3 = 0#256 then 0#256
  else ((op1.setWidth 512 * op2.setWidth 512) % op3.setWidth 512).setWidth 256

/-- The loop of `arithmetic::exp`, in so many rounds. -/
def expLoop : Nat → U256 → U256 → U256 → U256
  | 0, _, _, r => r
  | rounds + 1, op1, op2, r =>
    if op2 = 0#256 then r
    else
      let r := if op2 &&& 1#256 ≠ 0#256 then r * op1 else r
      expLoop rounds (op1 * op1) (op2 >>> 1) r

/-- `arithmetic::exp`: an exponent has 256 bits, and a round shifts one of them out. -/
def exp (op1 op2 : U256) : U256 := expLoop 256 op1 op2 1#256

/-- `arithmetic::signextend`. -/
def signextend (op1 op2 : U256) : U256 :=
  if op1 < 32#256 then
    let bitIndex := 8 * op1.toNat + 7
    let mask := (1#256 <<< bitIndex) - 1#256
    if op2.getLsbD bitIndex then op2 ||| ~~~mask else op2 &&& mask
  else op2

/-- `bitwise::slt`. -/
def slt (op1 op2 : U256) : U256 :=
  boolWord ((I256.ofU256 op1).cmp (I256.ofU256 op2) = .lt)

/-- `bitwise::sgt`. -/
def sgt (op1 op2 : U256) : U256 :=
  boolWord ((I256.ofU256 op1).cmp (I256.ofU256 op2) = .gt)

/-- `bitwise::iszero`. -/
def iszero (op1 : U256) : U256 := boolWord (op1 = 0#256)

/-- A round of the loop of `bitwise::byte`. -/
def byteStep (op1 op2 ret : U256) (i : Nat) : U256 :=
  if i < 8 ∧ op1 < 32#256 then
    let t := 255 - (7 - i + 8 * op1.toNat)
    let bitMask := 1#256 <<< t
    let value := (op2 &&& bitMask) >>> t
    ret + (value <<< i)
  else ret

/-- `bitwise::byte`. -/
def byte (op1 op2 : U256) : U256 := (List.range 256).foldl (byteStep op1 op2) 0#256

/-- `bitwise::shl`. -/
def shl (shift value : U256) : U256 :=
  if value = 0#256 ∨ 256 ≤ shift.toNat then 0#256 else value <<< shift.toNat

/-- `bitwise::shr`. -/
def shr (shift value : U256) : U256 :=
  if value = 0#256 ∨ 256 ≤ shift.toNat then 0#256 else value >>> shift.toNat

/-- `bitwise::sar`. -/
def sar (shift value : U256) : U256 :=
  let value := I256.ofU256 value
  if value = I256.zero ∨ 256 ≤ shift.toNat then
    match value.sign with
    | .plus | .zero => 0#256
    | .minus => I256.toU256 ⟨.minus, 1#256⟩
  else
    match value.sign with
    | .plus | .zero => value.value >>> shift.toNat
    | .minus => I256.toU256 ⟨.minus, ((value.value - 1#256) >>> shift.toNat) + 1#256⟩

/-! ## What signed instructions compute -/

/-- The mask keeps the words whose sign bit is clear. -/
theorem and_signBitMask {x : U256} (h : x.msb = false) : x &&& signBitMask = x := by
  have hmask : signBitMask.toNat = 2 ^ 255 - 1 := rfl
  have hlt := BitVec.msb_eq_false_iff_two_mul_lt.1 h
  refine BitVec.eq_of_toNat_eq ?_
  rw [BitVec.toNat_and, hmask, Nat.and_two_pow_sub_one_eq_mod]
  exact Nat.mod_eq_of_lt (by omega)

/-- The mask changes the words whose sign bit is set. -/
theorem and_signBitMask_ne {x : U256} (h : x.msb = true) : x &&& signBitMask ≠ x := by
  intro heq
  have hmsb := congrArg BitVec.msb heq
  rw [BitVec.msb_and, h] at hmsb
  exact absurd hmsb (by decide)

namespace I256

theorem pos_of_ne_zero {x : U256} (h : x ≠ 0#256) : 0 < x.toNat :=
  Nat.pos_of_ne_zero fun hzero => h (BitVec.eq_of_toNat_eq hzero)

/-- The sign and the magnitude of a word. -/
inductive Parts : U256 → I256 → Prop
  | zero : Parts 0#256 zero
  | plus {x : U256} : x ≠ 0#256 → x.msb = false → Parts x ⟨.plus, x⟩
  | minus {x : U256} : x.msb = true → Parts x ⟨.minus, -x⟩

theorem parts_ofU256 (x : U256) : Parts x (ofU256 x) := by
  rw [ofU256]
  split
  · rename_i hzero
    rw [hzero]
    exact .zero
  · rename_i hzero
    cases hmsb : x.msb with
    | false =>
      rw [if_pos (and_signBitMask hmsb)]
      exact .plus hzero hmsb
    | true =>
      rw [if_neg (and_signBitMask_ne hmsb), ← BitVec.neg_eq_not_add]
      exact .minus hmsb

theorem toU256_minus (x : U256) : toU256 ⟨.minus, x⟩ = -x := (BitVec.neg_eq_not_add x).symm

/-- The magnitude of a negative word. -/
theorem toNat_neg_of_msb {x : U256} (h : x.msb = true) :
    (-x).toNat ≤ 2 ^ 255 ∧ 0 < (-x).toNat ∧ x.toInt = -(-x).toNat := by
  have hle := BitVec.msb_eq_true_iff_two_mul_ge.1 h
  have hlt := x.isLt
  rw [BitVec.toInt_eq_msb_cond, if_pos h, BitVec.toNat_neg]
  omega

namespace Parts

variable {x : U256} {i : I256}

theorem sign (h : Parts x i) : i.sign = .minus ↔ x.msb = true := by
  cases h with
  | zero => simp [I256.zero]
  | plus _ hmsb => simp [hmsb]
  | minus hmsb => simp [hmsb]

theorem value (h : Parts x i) : i.value = if x.msb then -x else x := by
  cases h with
  | zero => simp [I256.zero]
  | plus _ hmsb => simp [hmsb]
  | minus hmsb => simp [hmsb]

theorem pos (h : Parts x i) (hne : x ≠ 0#256) : 0 < i.value.toNat := by
  cases h with
  | zero => exact absurd rfl hne
  | plus => exact pos_of_ne_zero hne
  | minus hmsb => exact (toNat_neg_of_msb hmsb).2.1

/-- The magnitude `2 ^ 255` is that of the least number. -/
theorem value_le (h : Parts x i) :
    i.value.toNat ≤ 2 ^ 255 ∧ (i.value.toNat = 2 ^ 255 → i = minValue) := by
  cases h with
  | zero => exact ⟨by decide, fun h => absurd h (by decide)⟩
  | plus _ hmsb =>
    have hlt := BitVec.msb_eq_false_iff_two_mul_lt.1 hmsb
    dsimp only
    exact ⟨by omega, fun h => by omega⟩
  | minus hmsb =>
    refine ⟨(toNat_neg_of_msb hmsb).1, fun h => ?_⟩
    rw [minValue, I256.mk.injEq]
    exact ⟨rfl, BitVec.eq_of_toNat_eq h⟩

/-- The number that a sign and a magnitude stand for. -/
theorem toInt (h : Parts x i) :
    i.sign = .zero ∧ x.toInt = 0 ∨ i.sign = .plus ∧ 0 < x.toInt ∧ x.toInt = i.value.toNat ∨
      i.sign = .minus ∧ x.toInt < 0 ∧ x.toInt = -i.value.toNat := by
  cases h with
  | zero => exact .inl ⟨rfl, BitVec.toInt_zero⟩
  | plus hne hmsb =>
    have hint := BitVec.toInt_eq_toNat_of_msb hmsb
    have hpos := pos_of_ne_zero hne
    exact .inr (.inl ⟨rfl, by omega, hint⟩)
  | minus hmsb =>
    obtain ⟨-, hpos, hint⟩ := toNat_neg_of_msb hmsb
    exact .inr (.inr ⟨rfl, by omega, hint⟩)

end Parts

/-- The order of the signs and the magnitudes is the one of the numbers. -/
theorem cmp_iff {x y : U256} {i j : I256} (hi : Parts x i) (hj : Parts y j) :
    (i.cmp j = .lt ↔ x.toInt < y.toInt) ∧ (i.cmp j = .gt ↔ y.toInt < x.toInt) := by
  rcases hi.toInt with ⟨hs, h⟩ | ⟨hs, h⟩ | ⟨hs, h⟩ <;>
    rcases hj.toInt with ⟨hs', h'⟩ | ⟨hs', h'⟩ | ⟨hs', h'⟩ <;>
    simp only [cmp, hs, hs', Ordering.swap_eq_lt, Ordering.swap_eq_gt, compare_lt_iff_lt,
      compare_gt_iff_gt, reduceCtorEq, true_iff, false_iff] <;> omega

/-- A division is one of the magnitudes, with the sign of the two signs. -/
theorem toU256_div {x : U256} {i j : I256} (hi : Parts x i) (hpos : 0 < j.value.toNat) :
    (i.div j).toU256 = if i.sign = .minus ↔ j.sign = .minus then i.value / j.value
      else -(i.value / j.value) := by
  obtain ⟨hle, hmin⟩ := hi.value_le
  have hj : j ≠ zero := by
    rintro rfl
    exact absurd hpos (by decide)
  rw [div, if_neg hj]
  split
  · -- the only quotient that is out of range
    rename_i hover
    rw [hover.1, hover.2, BitVec.udiv_one]
    split <;> decide
  · rename_i hover
    have hdiv : i.value.toNat / j.value.toNat < 2 ^ 255 := by
      by_cases hone : j.value.toNat = 1
      · have hne : i.value.toNat ≠ 2 ^ 255 := fun h =>
          hover ⟨hmin h, BitVec.eq_of_toNat_eq hone⟩
        rw [hone, Nat.div_one]
        omega
      · exact (Nat.div_le_div hle (show 2 ≤ _ by omega) (by decide)).trans_lt (by decide)
    have hq : (i.value / j.value).msb = false := by
      rw [BitVec.msb_eq_false_iff_two_mul_lt, BitVec.toNat_udiv]
      omega
    rw [and_signBitMask hq]
    dsimp only
    split
    · rename_i hzero
      rw [hzero]
      split <;> rfl
    · obtain ⟨isign, ivalue⟩ := i
      obtain ⟨jsign, jvalue⟩ := j
      cases isign <;> cases jsign <;> first | rfl | exact toU256_minus _

/-- A remainder is one of the magnitudes, with the sign of the dividend. -/
theorem toU256_rem {x y : U256} {i j : I256} (hi : Parts x i) (hj : Parts y j) (hy : y ≠ 0#256) :
    (i.rem j).toU256 = if i.sign = .minus then -(i.value % j.value) else i.value % j.value := by
  have hr : (i.value % j.value).msb = false := by
    have hlt := Nat.mod_lt i.value.toNat (hj.pos hy)
    have hle := hj.value_le.1
    rw [BitVec.msb_eq_false_iff_two_mul_lt, BitVec.toNat_umod]
    omega
  rw [rem, and_signBitMask hr]
  split
  · rename_i hzero
    rw [hzero]
    split <;> rfl
  · cases hi with
    | zero => exact BitVec.zero_umod.symm
    | plus => rfl
    | minus => exact toU256_minus _

end I256

open I256 in
/-- `SDIV` truncates towards zero; the one overflow, `-2 ^ 255` by `-1`, wraps. -/
theorem sdiv_eq (a b : U256) : sdiv a b = a.sdiv b := by
  rw [sdiv]
  by_cases hb : b = 0#256
  · have hzero : ofU256 0#256 = zero := if_pos rfl
    rw [hb, BitVec.sdiv_zero, I256.div, hzero, if_pos rfl]
    rfl
  · have hi := parts_ofU256 a
    have hj := parts_ofU256 b
    rw [toU256_div hi (hj.pos hb), BitVec.sdiv_eq, hi.value, hj.value]
    simp only [hi.sign, hj.sign]
    cases a.msb <;> cases b.msb <;> rfl

open I256 in
/-- `SMOD` has the sign of the dividend. -/
theorem srem_eq (a : U256) {b : U256} (hb : b ≠ 0#256) : srem a b = a.srem b := by
  have hi := parts_ofU256 a
  have hj := parts_ofU256 b
  rw [srem, if_neg hb, toU256_rem hi hj hb, BitVec.srem_eq, hi.value, hj.value]
  simp only [hi.sign]
  cases a.msb <;> cases b.msb <;> rfl

open I256 in
/-- `SAR` rounds down. -/
theorem sar_eq (shift value : U256) : sar shift value = value.sshiftRight shift.toNat := by
  have hi := parts_ofU256 value
  rw [sar]
  generalize ofU256 value = i at hi ⊢
  cases hi with
  | zero =>
    rw [if_pos (.inl rfl)]
    exact BitVec.zero_sshiftRight.symm
  | plus hne hmsb =>
    rw [BitVec.sshiftRight_eq_of_msb_false hmsb]
    split
    · rename_i h
      rcases h with h | h
      · cases h
      · exact (BitVec.ushiftRight_eq_zero h).symm
    · rfl
  | minus hmsb =>
    rw [BitVec.sshiftRight_eq_of_msb_true hmsb]
    split
    · rename_i h
      rcases h with h | h
      · cases h
      · rw [BitVec.ushiftRight_eq_zero h]
        rfl
    · dsimp only
      rw [toU256_minus, BitVec.neg_add, ← BitVec.not_neg, ← BitVec.not_neg, BitVec.neg_neg,
        BitVec.neg_neg]

/-- `SLT` compares signed numbers. -/
theorem slt_eq (a b : U256) : slt a b = boolWord (a.slt b) := by
  have hcmp := I256.cmp_iff (I256.parts_ofU256 a) (I256.parts_ofU256 b)
  exact congrArg boolWord (decide_eq_decide.2 hcmp.1)

/-- `SGT` compares signed numbers. -/
theorem sgt_eq (a b : U256) : sgt a b = boolWord (b.slt a) := by
  have hcmp := I256.cmp_iff (I256.parts_ofU256 a) (I256.parts_ofU256 b)
  exact congrArg boolWord (decide_eq_decide.2 hcmp.2)

/-! ## Loops, masks and moduli -/

section Wide

variable {w v : Nat} (a b : BitVec w)

/-- A sum of widened words does not wrap. -/
theorem toNat_setWidth_add (h : w < v) :
    (a.setWidth v + b.setWidth v).toNat = a.toNat + b.toNat := by
  have hsum : a.toNat + b.toNat < 2 ^ v :=
    calc a.toNat + b.toNat < 2 ^ w + 2 ^ w := Nat.add_lt_add a.isLt b.isLt
      _ = 2 ^ (w + 1) := by rw [pow_succ, Nat.mul_two]
      _ ≤ 2 ^ v := Nat.pow_le_pow_right (by decide) h
  rw [BitVec.toNat_add, BitVec.toNat_setWidth_of_le h.le, BitVec.toNat_setWidth_of_le h.le,
    Nat.mod_eq_of_lt hsum]

/-- A product of widened words does not wrap. -/
theorem toNat_setWidth_mul (h : w + w ≤ v) :
    (a.setWidth v * b.setWidth v).toNat = a.toNat * b.toNat := by
  have hw : w ≤ v := by omega
  have hmul : a.toNat * b.toNat < 2 ^ v :=
    calc a.toNat * b.toNat < 2 ^ w * 2 ^ w := Nat.mul_lt_mul'' a.isLt b.isLt
      _ = 2 ^ (w + w) := (pow_add 2 w w).symm
      _ ≤ 2 ^ v := Nat.pow_le_pow_right (by decide) h
  rw [BitVec.toNat_mul, BitVec.toNat_setWidth_of_le hw, BitVec.toNat_setWidth_of_le hw,
    Nat.mod_eq_of_lt hmul]

/-- A remainder by a word, computed with more bits. -/
theorem toNat_umod_setWidth {x : BitVec v} {c : BitVec w} (h : w ≤ v) (hc : 0 < c.toNat) :
    ((x % c.setWidth v).setWidth w).toNat = x.toNat % c.toNat := by
  have hlt := Nat.mod_lt x.toNat hc
  rw [BitVec.toNat_setWidth, BitVec.toNat_umod, BitVec.toNat_setWidth_of_le h,
    Nat.mod_eq_of_lt (hlt.trans c.isLt)]

end Wide

/-- `ADDMOD` does not wrap before it takes the remainder. -/
theorem toNat_addmod (a b c : U256) :
    (addmod a b c).toNat = if c = 0#256 then 0 else (a.toNat + b.toNat) % c.toNat := by
  rw [addmod]
  split
  · rfl
  · rename_i hc
    rw [toNat_umod_setWidth (by decide) (I256.pos_of_ne_zero hc), toNat_setWidth_add a b
      (by decide)]

/-- `MULMOD` does not wrap before it takes the remainder. -/
theorem toNat_mulmod (a b c : U256) :
    (mulmod a b c).toNat = if c = 0#256 then 0 else a.toNat * b.toNat % c.toNat := by
  rw [mulmod]
  split
  · rfl
  · rename_i hc
    rw [toNat_umod_setWidth (by decide) (I256.pos_of_ne_zero hc), toNat_setWidth_mul a b
      (by decide)]

/-- What the loop has still to multiply. -/
theorem toNat_expLoop (rounds : Nat) (a b r : U256) (hb : b.toNat < 2 ^ rounds) :
    (expLoop rounds a b r).toNat = r.toNat * a.toNat ^ b.toNat % 2 ^ 256 := by
  induction rounds generalizing a b r with
  | zero =>
    have hb0 : b.toNat = 0 := by omega
    rw [expLoop, hb0, pow_zero, mul_one, Nat.mod_eq_of_lt r.isLt]
  | succ rounds ih =>
    rw [expLoop]
    split
    · rename_i hzero
      rw [hzero, show (0#256).toNat = 0 from rfl, pow_zero, mul_one, Nat.mod_eq_of_lt r.isLt]
    · have hhalf : (b >>> 1).toNat = b.toNat / 2 := by
        rw [BitVec.toNat_ushiftRight, Nat.shiftRight_one]
      have hsquare : (a.toNat * a.toNat % 2 ^ 256) ^ (b.toNat / 2) ≡
          a.toNat ^ (2 * (b.toNat / 2)) [MOD 2 ^ 256] := by
        rw [pow_mul, pow_two]
        exact (Nat.mod_modEq _ _).pow _
      have hbit : (b &&& 1#256).toNat = b.toNat % 2 := by
        rw [BitVec.toNat_and, show (1#256).toNat = 1 from rfl, Nat.and_one_is_mod]
      rw [ih _ _ _ (by rw [hhalf]; omega), hhalf, BitVec.toNat_mul]
      split
      · rename_i hodd
        have hodd' : b.toNat % 2 = 1 := by
          have : (b &&& 1#256).toNat ≠ 0 := fun h => hodd (BitVec.eq_of_toNat_eq h)
          omega
        rw [BitVec.toNat_mul]
        refine ((Nat.mod_modEq _ _).mul hsquare).trans ?_
        have hsplit : b.toNat = 2 * (b.toNat / 2) + 1 := by omega
        conv_rhs => rw [hsplit, pow_succ]
        exact congrArg (· % 2 ^ 256) (by ring)
      · rename_i heven
        have heven' : b.toNat % 2 = 0 := by
          have : (b &&& 1#256).toNat = 0 := by
            rw [not_not.1 heven]
            rfl
          omega
        refine ((Nat.ModEq.refl _).mul hsquare).trans ?_
        rw [show 2 * (b.toNat / 2) = b.toNat by omega]

theorem toNat_exp (a b : U256) : (exp a b).toNat = a.toNat ^ b.toNat % 2 ^ 256 := by
  rw [exp, toNat_expLoop 256 a b 1#256 b.isLt, show (1#256).toNat = 1 from rfl, one_mul]

/-- A mask of low bits. -/
theorem getLsbD_shiftLeft_sub_one {n i : Nat} (hn : n < 256) :
    (((1#256 <<< n) - 1#256).getLsbD i) = decide (i < n) := by
  have hnat : ((1#256 <<< n) - 1#256).toNat = 2 ^ n - 1 := by
    have hshift : (1#256 <<< n).toNat = 2 ^ n := BitVec.toNat_twoPow_of_lt hn
    rw [BitVec.toNat_sub_of_le, hshift]
    · rfl
    · rw [BitVec.le_def, hshift]
      exact Nat.two_pow_pos n
  rw [BitVec.getLsbD, hnat, Nat.testBit_two_pow_sub_one]

/-- `SIGNEXTEND` reads the low bytes of a word as a signed number. -/
theorem signextend_eq {a : U256} (b : U256) (ha : a.toNat < 32) :
    signextend a b = (b.setWidth (8 * a.toNat + 8)).signExtend 256 := by
  have hn : 8 * a.toNat + 7 < 256 := by omega
  have hsign : (b.setWidth (8 * a.toNat + 8)).msb = b.getLsbD (8 * a.toNat + 7) := by
    rw [BitVec.msb_setWidth]
    simp
  rw [signextend, if_pos (show a < 32#256 from ha)]
  refine BitVec.eq_of_getLsbD_eq fun i hi => ?_
  rw [BitVec.getLsbD_signExtend, hsign, BitVec.getLsbD_setWidth]
  dsimp only
  cases hbit : b.getLsbD (8 * a.toNat + 7) with
  | true =>
    rw [if_pos rfl, BitVec.getLsbD_or, BitVec.getLsbD_not, getLsbD_shiftLeft_sub_one hn]
    grind
  | false =>
    rw [if_neg Bool.false_ne_true, BitVec.getLsbD_and, getLsbD_shiftLeft_sub_one hn]
    grind

/-- A round of the loop of `BYTE` gathers one bit. -/
theorem getLsbD_bit (b : U256) {t i n : Nat} (hi : i < 256) :
    (((b &&& (1#256 <<< t)) >>> t) <<< n).getLsbD i = (decide (i = n) && b.getLsbD t) := by
  simp only [BitVec.getLsbD_shiftLeft, BitVec.getLsbD_ushiftRight, BitVec.getLsbD_and,
    BitVec.getLsbD_one]
  grind

/-- The bits that the loop of `BYTE` has gathered. -/
theorem foldl_byteStep {a : U256} (b : U256) (ha : a.toNat < 32) {n : Nat} (hn : n ≤ 8) :
    (List.range n).foldl (byteStep a b) 0#256 =
      ((b >>> (248 - 8 * a.toNat)).setWidth n).setWidth 256 := by
  induction n with
  | zero => rw [BitVec.eq_nil (BitVec.setWidth 0 _)]; rfl
  | succ n ih =>
    have hbit : 255 - (7 - n + 8 * a.toNat) = 248 - 8 * a.toNat + n := by omega
    rw [List.range_succ, List.foldl_append, List.foldl_cons, List.foldl_nil, byteStep,
      if_pos ⟨by omega, ha⟩, ih (by omega), hbit]
    dsimp only
    rw [BitVec.add_eq_or_of_and_eq_zero]
    · refine BitVec.eq_of_getLsbD_eq fun i hi => ?_
      rw [BitVec.getLsbD_or, getLsbD_bit b hi]
      grind
    · refine BitVec.eq_of_getLsbD_eq fun i hi => ?_
      rw [BitVec.getLsbD_and, getLsbD_bit b hi]
      grind

/-- `BYTE` counts the bytes of a word from the highest one. -/
theorem byte_eq (a b : U256) :
    byte a b = if a.toNat < 32 then ((b >>> (248 - 8 * a.toNat)).setWidth 8).setWidth 256
      else 0#256 := by
  split
  · rename_i ha
    have hsplit : List.range 256 = List.range 8 ++ (List.range 248).map (8 + ·) := by
      rw [← List.range_add]
    rw [byte, hsplit, List.foldl_append, List.foldl_map, foldl_byteStep b ha le_rfl]
    -- from the ninth round on the loop does nothing
    exact List.foldl_fixed' (fun i => if_neg (by omega)) _
  · rename_i ha
    exact List.foldl_fixed' (fun i => if_neg fun h => ha h.2) _

end Chase.Vm
