import AckFormal.Fp.Division

/-!
# The arithmetic on doubles

The four operations between `extend` and `compact`: an exact result that is a
double is delivered, another one is rounded to a neighbour.
-/

namespace AckFormal.Fp.SoftFloat

open Flt.Mantissa Extended Fp.Compact Arithmetic Multiplication Division Lib.Faithful

inductive Operation where
  | add
  | sub
  | mul
  | div

namespace Operation

def ext : Operation → EXTEND → EXTEND → EXTEND × List Trap
  | add, e1, e2 => (addExt e1 e2, [])
  | sub, e1, e2 => (subExt e1 e2, [])
  | mul, e1, e2 => mulExt e1 e2
  | div, e1, e2 => divExt e1 e2

def exact : Operation → ℚ → ℚ → ℚ
  | add, x, y => x + y
  | sub, x, y => x - y
  | mul, x, y => x * y
  | div, x, y => x / y

def double (op : Operation) (msl : Bool) (x y : DOUBLE) : DOUBLE × List Trap :=
  let computed := op.ext (extend msl x) (extend msl y)
  let packed := compact msl computed.1
  (packed.1, computed.2 ++ packed.2)

end Operation

def IsDouble (msl : Bool) (v : ℚ) : Prop :=
  ∃ z : DOUBLE, z.Finite msl ∧ z.value msl = v

theorem magnitude_nonneg (msl : Bool) (z : DOUBLE) : 0 ≤ z.magnitude msl := by
  unfold DOUBLE.magnitude
  split <;> positivity

theorem abs_value (msl : Bool) (z : DOUBLE) : |z.value msl| = z.magnitude msl := by
  unfold DOUBLE.value
  split
  next => rw [abs_neg, abs_of_nonneg (magnitude_nonneg msl z)]
  next => exact abs_of_nonneg (magnitude_nonneg msl z)

variable {msl : Bool} {x y : DOUBLE}

theorem isDouble_format {v : ℚ} (double : IsDouble msl v) : Format v := by
  obtain ⟨z, finite, rfl⟩ := double
  have fraction := z.fraction_lt msl
  change Lib.Rounding.Representable 53 (-1074) |z.value msl|
  rw [abs_value]
  unfold DOUBLE.magnitude
  split
  next => exact ⟨z.fraction msl, -1074, by omega, le_rfl, rfl⟩
  next some => exact ⟨2 ^ 52 + z.fraction msl, _, by omega, by omega, rfl⟩

theorem isDouble_le_largest {v : ℚ} (double : IsDouble msl v) : |v| ≤ largest := by
  obtain ⟨z, finite, rfl⟩ := double
  unfold DOUBLE.Finite at finite
  have fraction := z.fraction_lt msl
  have bits {n : Nat} (small : n < 2 ^ 53) : (n : ℚ) ≤ 2 ^ 53 - 1 := by
    have natural : n + 1 ≤ 2 ^ 53 := small
    have cast : (n : ℚ) + 1 ≤ 2 ^ 53 := by exact_mod_cast natural
    linarith
  have scaled {n : Nat} {q : Int} (small : n < 2 ^ 53) (low : q ≤ 971) :
      (n : ℚ) * 2 ^ q ≤ largest :=
    mul_le_mul (bits small) (zpow_le_zpow_right₀ (by norm_num) low) (by positivity) (by norm_num)
  rw [abs_value]
  unfold DOUBLE.magnitude
  split
  next => exact scaled (by omega) (by norm_num)
  next => exact scaled (by omega) (by omega)

theorem value_of_fields {z : DOUBLE} {e f : Nat} (positive : ¬ z.negative msl)
    (exponent : z.exponent msl = e + 1) (fraction : z.fraction msl = f) :
    z.value msl = (2 ^ 52 + f : Nat) * (2 : ℚ) ^ ((e + 1 : Nat) - 1075 : Int) := by
  rw [DOUBLE.value, if_neg positive, DOUBLE.magnitude, exponent, if_neg (Nat.succ_ne_zero e),
    fraction]

theorem largest_isGreatest (msl : Bool) : IsGreatest {v | IsDouble msl v} largest := by
  refine ⟨⟨if msl then ⟨0x7fefffff, 0xffffffff⟩ else ⟨0xffffffff, 0x7fefffff⟩, ?_, ?_⟩,
    fun v double => (le_abs_self v).trans (isDouble_le_largest double)⟩
  · cases msl <;> decide
  · rw [value_of_fields (e := 2045) (f := 2 ^ 52 - 1) (by cases msl <;> decide)
      (by cases msl <;> rfl) (by cases msl <;> rfl), largest]
    norm_num

theorem zero_double (msl : Bool) :
    (⟨0, 0⟩ : DOUBLE).Finite msl ∧ (⟨0, 0⟩ : DOUBLE).value msl = 0 := by
  cases msl <;>
    simp [DOUBLE.Finite, DOUBLE.exponent, DOUBLE.value, DOUBLE.magnitude, DOUBLE.fraction,
      DOUBLE.negative, DOUBLE.high, DOUBLE.low]

section

variable (op : Operation) (finiteX : x.Finite msl) (finiteY : y.Finite msl)
  (divisor : op = .div → y.value msl ≠ 0)
include op finiteX finiteY divisor

theorem ext_delivers :
    Delivers (op.ext (extend msl x) (extend msl y)).1 (op.exact (x.value msl) (y.value msl)) ∧
      (op.ext (extend msl x) (extend msl y)).2 = [] := by
  have first := extend_unpacked msl finiteX
  have second := extend_unpacked msl finiteY
  cases op with
  | add => exact ⟨addExt_delivers first second, rfl⟩
  | sub => exact ⟨subExt_delivers first second, rfl⟩
  | mul => exact mulExt_delivers first second
  | div => exact divExt_delivers first second (divisor rfl)

/-- The result lies on the same side of every double as the exact one. -/
theorem double_respects (bounded : |op.exact (x.value msl) (y.value msl)| ≤ largest) :
    (op.double msl x y).1.Finite msl ∧
      Respects (IsDouble msl) (op.exact (x.value msl) (y.value msl))
        ((op.double msl x y).1.value msl) ∧
      (op.double msl x y).2 = [] := by
  obtain ⟨delivers, quiet⟩ := ext_delivers op finiteX finiteY divisor
  unfold Operation.double
  dsimp only
  rw [quiet, List.nil_append]
  generalize op.exact (x.value msl) (y.value msl) = v at delivers bounded ⊢
  rcases delivers with ⟨empty, rfl⟩ | approximates
  · obtain ⟨finite, value⟩ := zero_double msl
    rw [compact_zero msl empty]
    refine ⟨finite, ?_, rfl⟩
    rw [value]
    exact Respects.refl _ _
  · obtain ⟨finite, respects, traps⟩ := compact_approximates msl approximates bounded
    exact ⟨finite, respects.mono fun _ => isDouble_format, traps⟩

end

/-- A product with a zero operand is the double with both words zero. -/
theorem product_zero (finiteX : x.Finite msl) (finiteY : y.Finite msl)
    (zero : x.value msl = 0 ∨ y.value msl = 0) : Operation.mul.double msl x y = (⟨0, 0⟩, []) := by
  obtain ⟨delivers, quiet⟩ := ext_delivers .mul finiteX finiteY nofun
  have product : x.value msl * y.value msl = 0 := mul_eq_zero.mpr zero
  unfold Operation.double
  dsimp only
  rw [quiet]
  rcases delivers with ⟨empty, -⟩ | ⟨normal, -, -, w, near, value⟩
  · rw [compact_zero msl empty]
    rfl
  · -- an approximation of zero has no leading bit
    change x.value msl * y.value msl = _ at value
    rw [product] at value
    have unitPos := (Operation.mul.ext (extend msl x) (extend msl y)).1.unit_pos
    have large : (2 : ℚ) ^ 63 ≤
        (Operation.mul.ext (extend msl x) (extend msl y)).1.mantissa.value := by
      exact_mod_cast normal
    have positive : 0 < w := by linarith [near.high]
    have size := abs_signed (Operation.mul.ext (extend msl x) (extend msl y)).1.sign
      (mul_pos positive unitPos).le
    rw [← value, abs_zero] at size
    exact absurd size (mul_pos positive unitPos).ne

/-- The operations deliver an exact result that is a double, and otherwise one of
its two neighbours as long as it is not beyond the largest double; a zero factor
gives zero without a trap. -/
theorem double_faithful (op : Operation) (msl : Bool) (x y : DOUBLE) (finiteX : x.Finite msl)
    (finiteY : y.Finite msl) (divisor : op = .div → y.value msl ≠ 0) :
    (IsDouble msl (op.exact (x.value msl) (y.value msl)) →
      (op.double msl x y).1.Finite msl ∧
        (op.double msl x y).1.value msl = op.exact (x.value msl) (y.value msl)) ∧
    (|op.exact (x.value msl) (y.value msl)| ≤ largest →
      (op.double msl x y).1.Finite msl ∧
        Adjacent (IsDouble msl) (op.exact (x.value msl) (y.value msl))
          ((op.double msl x y).1.value msl)) ∧
    (op = .mul → x.value msl = 0 ∨ y.value msl = 0 →
      op.double msl x y = (⟨0, 0⟩, []) ∧ (op.double msl x y).1.value msl = 0) := by
  refine ⟨fun representable => ?_, fun bounded => ?_, ?_⟩
  · obtain ⟨finite, respects, -⟩ :=
      double_respects op finiteX finiteY divisor (isDouble_le_largest representable)
    exact ⟨finite, respects.eq_of_mem representable⟩
  · obtain ⟨finite, respects, -⟩ := double_respects op finiteX finiteY divisor bounded
    exact ⟨finite, respects.adjacent ⟨_, finite, rfl⟩⟩
  · rintro rfl zero
    have result := product_zero finiteX finiteY zero
    rw [result]
    exact ⟨rfl, (zero_double msl).2⟩

/-- One divided by three. -/
theorem double_faithful_third :
    (Operation.div.double false ⟨0, 0x3ff00000⟩ ⟨0, 0x40080000⟩).1 = ⟨0x55555555, 0x3fd55555⟩ ∧
      Adjacent (IsDouble false) (1 / 3)
        ((Operation.div.double false ⟨0, 0x3ff00000⟩ ⟨0, 0x40080000⟩).1.value false) := by
  have one : (⟨0, 0x3ff00000⟩ : DOUBLE).value false = 1 := by
    rw [value_of_fields (e := 1022) (f := 0) (by decide) rfl rfl]
    norm_num
  have three : (⟨0, 0x40080000⟩ : DOUBLE).value false = 3 := by
    rw [value_of_fields (e := 1023) (f := 2 ^ 51) (by decide) rfl rfl]
    norm_num
  have third : Operation.div.exact ((⟨0, 0x3ff00000⟩ : DOUBLE).value false)
      ((⟨0, 0x40080000⟩ : DOUBLE).value false) = 1 / 3 := by
    rw [one, three]
    rfl
  have bounded : |(1 / 3 : ℚ)| ≤ largest := by
    have wide : (1 : ℚ) ≤ 2 ^ (971 : Int) := one_le_zpow₀ (by norm_num) (by norm_num)
    rw [largest, abs_of_nonneg (by norm_num)]
    generalize (2 : ℚ) ^ (971 : Int) = t at wide ⊢
    linarith
  have faithful := (double_faithful .div false ⟨0, 0x3ff00000⟩ ⟨0, 0x40080000⟩ (by decide)
    (by decide) (fun _ => by rw [three]; norm_num)).2.1
  rw [third] at faithful
  exact ⟨by decide +kernel, (faithful bounded).2⟩

end AckFormal.Fp.SoftFloat
