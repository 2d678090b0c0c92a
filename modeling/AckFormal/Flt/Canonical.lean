import AckFormal.Flt.Sequence

/-!
# Canonical results

Every operation that reaches the normaliser or the range check with a
normalized mantissa delivers a canonical number.  What is left are the exits
that bypass both: a product with a zero operand, which keeps sign and exponent
of the other operand, copies of an overflowed number, a difference of a zero
with itself, and literals that are a negative zero or far below the smallest
number.  `Sound` excludes them call by call.
-/

namespace AckFormal.Flt.Canonical

open Mantissa Number FltArith Operations Division Conversions Str2Flt Sequence
open Option (bind_eq_bind bind_eq_some_iff bind_some)

/-- What an object may hold: a canonical number or the overflow value. -/
def Held (x : FltArith) : Prop :=
  x.Canonical ∨ x.Overflowed

variable {result : FltArith × FltStatus} {x y : FltArith} {st st' : Store} {res : Nat}

theorem Delivered.held (delivered : Delivered result) : Held result.1 :=
  delivered.imp id And.left

theorem zero_not_normalized : ¬ FltMantissa.zero.Normalized := by
  decide

theorem Held.eq_zero (held : Held x) (empty : x.mantissa = FltMantissa.zero) : x = zero := by
  rcases held with (isZero | ⟨normal, -⟩) | ⟨normal, -⟩
  · exact isZero
  · exact absurd (empty ▸ normal) zero_not_normalized
  · exact absurd (empty ▸ normal) zero_not_normalized

theorem Held.normalized (held : Held x) (nonzero : x.mantissa ≠ FltMantissa.zero) :
    x.mantissa.Normalized := by
  rcases held with (isZero | ⟨normal, -⟩) | ⟨normal, -⟩
  · exact absurd (congrArg mantissa isZero) nonzero
  · exact normal
  · exact normal

theorem Held.canonical (held : Held x) (inside : x.exp < extMax) : x.Canonical := by
  rcases held with canonical | ⟨-, top⟩
  · exact canonical
  · omega

theorem canonical_negate (canonical : x.Canonical) (nonzero : x.mantissa ≠ FltMantissa.zero) :
    x.negate.Canonical := by
  rcases canonical with isZero | inside
  · exact absurd (congrArg mantissa isZero) nonzero
  · exact Or.inr inside

theorem fltAdd_delivered_of_exits (right : y.mantissa = FltMantissa.zero → x.Canonical)
    (left : x.mantissa = FltMantissa.zero → y.mantissa ≠ FltMantissa.zero → y.Canonical) :
    Delivered (fltAdd x y) := by
  by_cases yZero : y.mantissa = FltMantissa.zero
  · rw [fltAdd_zero_right yZero]
    exact Or.inl (right yZero)
  · by_cases xZero : x.mantissa = FltMantissa.zero
    · rw [fltAdd_zero_left yZero xZero]
      exact Or.inl (left xZero yZero)
    · exact fltAdd_delivered xZero yZero

/-! ## The condition on a call -/

/-- An early exit of an addition copies only numbers inside the range. -/
def CopiesInside (x y : FltArith) : Prop :=
  (y.mantissa = FltMantissa.zero → x.exp < extMax) ∧
    (x.mantissa = FltMantissa.zero → y.exp < extMax)

instance (x y : FltArith) : Decidable (CopiesInside x y) :=
  inferInstanceAs (Decidable ((_ → _) ∧ (_ → _)))

/-- A product has no zero operand, or sign and exponent of its operands cancel. -/
def ProductClean (x y : FltArith) : Prop :=
  (x.mantissa ≠ FltMantissa.zero ∧ y.mantissa ≠ FltMantissa.zero) ∨
    (x.sign = y.sign ∧ x.exp + y.exp = 0)

instance (x y : FltArith) : Decidable (ProductClean x y) :=
  inferInstanceAs (Decidable ((_ ∧ _) ∨ (_ ∧ _)))

/-- The calls whose results are canonical, in terms of the operands. -/
def Sound (st : Store) : Op → Prop
  | .add e1 e2 _ => ∀ x y, st.cells e1 = some x → st.cells e2 = some y → CopiesInside x y
  | .sub e1 e2 res => e2 ≠ res ∧ (e1 = e2 → ¬ IsZero st e2) ∧
      ∀ x y, st.cells e1 = some x → st.cells e2 = some y → CopiesInside x y
  | .mul e1 e2 _ => ∀ x y, st.cells e1 = some x → st.cells e2 = some y → ProductClean x y
  | .div _ e2 _ => ¬ IsZero st e2
  | .modf e ipart fpart => ipart ≠ e ∧ ipart ≠ fpart ∧
      ∀ x, st.cells e = some x → x.exp < extMax
  | .arith2flt _ _ _ => True
  | .str2flt s _ => Convertible (scanLiteral s)

/-! ## Products with a zero operand -/

theorem fltMul_zero (clean : ProductClean x y)
    (empty : x.mantissa = FltMantissa.zero ∨ y.mantissa = FltMantissa.zero) :
    fltMul x y = (zero, .ok) := by
  have cancel : x.sign = y.sign ∧ x.exp + y.exp = 0 := by
    rcases clean with ⟨xNonzero, yNonzero⟩ | cancel
    · rcases empty with xZero | yZero
      · exact absurd xZero xNonzero
      · exact absurd yZero yNonzero
    · exact cancel
  unfold fltMul
  rw [fltMulUnchecked_zero empty, cancel.1, cancel.2, Bool.xor_self]
  exact fltChk_zero .ok

theorem fltMul_delivered_of_clean (xHeld : Held x) (yHeld : Held y) (clean : ProductClean x y) :
    Delivered (fltMul x y) := by
  by_cases empty : x.mantissa = FltMantissa.zero ∨ y.mantissa = FltMantissa.zero
  · rw [fltMul_zero clean empty]
    exact delivered_zero _
  · rw [not_or] at empty
    exact fltMul_delivered (xHeld.normalized empty.1) (yHeld.normalized empty.2)

theorem fltAdd_zero_canonical {z : FltArith} (canonical : z.Canonical) :
    (fltAdd zero z).1 = z := by
  by_cases empty : z.mantissa = FltMantissa.zero
  · rw [fltAdd_zero_right empty, (Held.eq_zero (Or.inl canonical) empty)]
  · rw [fltAdd_zero_left empty rfl]

theorem actsAsZero_zero : ActsAsZero zero where
  compares := by decide
  adds := fun z canonical => ⟨fltAdd_zero_canonical canonical, by rw [fltAdd_zero_right rfl]⟩
  converts := fun uns => congrArg Prod.fst (fltFlt2arith_zero uns)

/-! ## Differences -/

theorem negate_negate (x : FltArith) : x.negate.negate = x := by
  unfold negate
  simp

/-- Apart from the operands `flt_sub` behaves as an addition of the negated
subtrahend, as long as the result does not overwrite it. -/
theorem fltSub_eq {e1 e2 : Nat} (left : st.cells e1 = some x) (right : st.cells e2 = some y)
    (kept : e2 ≠ res) :
    fltSub st e1 e2 res =
      some (deliver st res (fltAdd (if e1 = e2 then y.negate else x) y.negate)) := by
  have first : (st.write e2 y.negate).cells e1 = some (if e1 = e2 then y.negate else x) := by
    by_cases same : e1 = e2
    · rw [same, Store.write_cells_self, if_pos rfl]
    · rw [Store.write_cells_of_ne _ _ same, left, if_neg same]
  unfold fltSub
  simp only [right, bind_eq_bind, bind_some, first, Store.write_cells_self]
  generalize fltAdd (if e1 = e2 then y.negate else x) y.negate = result
  have back : (deliver (st.write e2 y.negate) res result).cells e2 = some y.negate := by
    unfold deliver
    rw [Store.write_cells_of_ne _ _ kept, Store.write_cells_self]
  rw [back, bind_some, negate_negate]
  congr 1
  unfold deliver Store.write
  simp only [Store.mk.injEq, and_true]
  funext other
  by_cases same : other = e2
  · subst same
    rw [Function.update_self, Function.update_of_ne kept, right]
  · rw [Function.update_of_ne same]
    by_cases isRes : other = res
    · subst isRes
      rw [Function.update_self, Function.update_self]
    · rw [Function.update_of_ne isRes, Function.update_of_ne isRes, Function.update_of_ne same]

theorem difference_delivered (xHeld : Held x) (yHeld : Held y) (inside : CopiesInside x y) :
    Delivered (fltAdd x y.negate) :=
  fltAdd_delivered_of_exits (fun yZero => xHeld.canonical (inside.1 yZero))
    fun xZero yNonzero => canonical_negate (yHeld.canonical (inside.2 xZero)) yNonzero

/-! ## The integer part -/

theorem integerPart_zero : integerPart zero = zero := by
  decide

theorem integerPart_canonical (held : Held x) (low : 0 ≤ x.exp) (high : x.exp < 63) :
    (integerPart x).Canonical ∧
      (x.mantissa = FltMantissa.zero ↔ (integerPart x).mantissa = FltMantissa.zero) := by
  by_cases empty : x.mantissa = FltMantissa.zero
  · rw [held.eq_zero empty, integerPart_zero]
    exact ⟨Or.inl rfl, Iff.rfl⟩
  · have normal := held.normalized empty
    obtain ⟨k, count⟩ : ∃ k : Nat, 63 - x.exp = k := ⟨(63 - x.exp).toNat, by omega⟩
    have back : x.exp - 63 = -(k : Int) := by omega
    have bound := x.mantissa.value_lt
    have kept : (integerPart x).mantissa.Normalized := by
      unfold integerPart FltMantissa.Normalized
      rw [count, back, fltB64Sft_left _ (by omega), fltB64Sft_right _ (by omega)]
      have whole : 2 ^ 63 = 2 ^ (63 - k) * 2 ^ k := by
        rw [← pow_add]
        congr 1
        omega
      rw [Nat.mod_eq_of_lt (lt_of_le_of_lt (Nat.div_mul_le_self _ _) bound), whole]
      refine Nat.mul_le_mul_right _ ((Nat.le_div_iff_mul_le (Nat.two_pow_pos k)).mpr ?_)
      rw [← whole]
      exact normal
    refine ⟨Or.inr ⟨kept, ?_⟩, fun zero => absurd zero empty, fun zero => ?_⟩
    · show extMin < x.exp ∧ x.exp < extMax
      unfold extMin extMax
      omega
    · exact absurd (zero ▸ kept) zero_not_normalized

/-! ## One call -/

def AllHeld (st : Store) : Prop :=
  ∀ l x, st.cells l = some x → Held x

theorem AllHeld.write (all : AllHeld st) {l : Nat} {e : FltArith} (held : Held e) :
    AllHeld (st.write l e) := by
  intro other x found
  by_cases same : other = l
  · subst same
    rw [Store.write_cells_self, Option.some.injEq] at found
    exact found ▸ held
  · rw [Store.write_cells_of_ne _ _ same] at found
    exact all other x found

theorem AllHeld.deliver (all : AllHeld st) (delivered : Delivered result) :
    AllHeld (deliver st res result) :=
  all.write (Delivered.held delivered)

def Leaves (op : Op) (st' : Store) : Prop :=
  AllHeld st' ∧ ∀ l ∈ op.results, ∃ x, st'.cells l = some x ∧ Delivered (x, st'.status)

theorem leaves_deliver (all : AllHeld st) {op : Op} (results : op.results = [res])
    (delivered : Delivered result) : Leaves op (deliver st res result) := by
  refine ⟨all.deliver delivered, fun l member => ⟨result.1, ?_, delivered⟩⟩
  rw [results, List.mem_singleton] at member
  rw [member]
  exact Store.write_cells_self ..

theorem sub_leaves (all : AllHeld st) {e1 e2 : Nat} (sound : Sound st (.sub e1 e2 res))
    (next : fltSub st e1 e2 res = some st') : Leaves (.sub e1 e2 res) st' := by
  obtain ⟨kept, nonzero, inside⟩ := sound
  cases right : st.cells e2 with
  | none => simp [fltSub, right] at next
  | some y =>
    cases left : st.cells e1 with
    | none =>
      have distinct : e1 ≠ e2 := by
        rintro rfl
        simp [right] at left
      simp [fltSub, Store.write_cells_of_ne _ _ distinct, left] at next
    | some x =>
      rw [fltSub_eq left right kept, Option.some.injEq] at next
      subst next
      refine leaves_deliver all rfl ?_
      by_cases same : e1 = e2
      · have some : y.negate.mantissa ≠ FltMantissa.zero := fun empty =>
          nonzero same ⟨y, right, empty⟩
        rw [if_pos same]
        exact fltAdd_delivered some some
      · rw [if_neg same]
        exact difference_delivered (all _ _ left) (all _ _ right) (inside x y left right)

theorem leaves_modf (all : AllHeld st') {e ipart fpart : Nat} {i f : FltArith}
    (integer : st'.cells ipart = some i) (integerCanonical : i.Canonical)
    (fraction : st'.cells fpart = some f) (fractionDelivered : Delivered (f, st'.status)) :
    Leaves (.modf e ipart fpart) st' := by
  refine ⟨all, fun l member => ?_⟩
  rcases List.mem_pair.mp member with isInteger | isFraction
  · exact ⟨i, isInteger ▸ integer, Or.inl integerCanonical⟩
  · exact ⟨f, isFraction ▸ fraction, fractionDelivered⟩

/-- Both parts of a number are canonical again. -/
theorem modf_leaves (all : AllHeld st) {e ipart fpart : Nat}
    (sound : Sound st (.modf e ipart fpart)) (next : fltModf st e ipart fpart = some st') :
    Leaves (.modf e ipart fpart) st' := by
  obtain ⟨apart, distinct, inside⟩ := sound
  have zeroCanonical : zero.Canonical := Or.inl rfl
  cases found : st.cells e with
  | none => simp [fltModf, found] at next
  | some x =>
    have held := all e x found
    have canonical := held.canonical (inside x found)
    simp only [fltModf, found, bind_eq_bind, bind_some] at next
    split at next
    next small =>
      rw [Option.some.injEq] at next
      subst next
      refine leaves_modf ((all.write held).write (Or.inl zeroCanonical))
        (Store.write_cells_self ..) zeroCanonical (f := x) ?_ (Or.inl canonical)
      rw [Store.write_cells_of_ne _ _ distinct.symm, Store.write_cells_self]
    next notSmall =>
      split at next
      next large =>
        obtain ⟨copy, copyFound, copyCanonical⟩ :
            ∃ copy, (st.write fpart zero).cells e = some copy ∧ copy.Canonical := by
          by_cases same : e = fpart
          · subst same
            exact ⟨zero, Store.write_cells_self .., zeroCanonical⟩
          · exact ⟨x, by rw [Store.write_cells_of_ne _ _ same, found], canonical⟩
        rw [copyFound, bind_some, Option.some.injEq] at next
        subst next
        refine leaves_modf ((all.write (Or.inl zeroCanonical)).write (Or.inl copyCanonical))
          (Store.write_cells_self ..) copyCanonical (f := zero) ?_ (Or.inl zeroCanonical)
        rw [Store.write_cells_of_ne _ _ distinct.symm, Store.write_cells_self]
      next notLarge =>
        obtain ⟨partCanonical, partZero⟩ :=
          integerPart_canonical held (not_lt.mp notSmall) (not_le.mp notLarge)
        have left : (st.write ipart (integerPart x)).cells e = some x := by
          rw [Store.write_cells_of_ne _ _ apart.symm, found]
        have right : (st.write ipart (integerPart x)).cells ipart = some (integerPart x) :=
          Store.write_cells_self ..
        have fraction : Delivered (fltAdd x (integerPart x).negate) :=
          fltAdd_delivered_of_exits (fun _ => canonical) fun xZero partNonzero =>
            absurd (partZero.mp xZero) partNonzero
        rw [fltSub_eq left right distinct, if_neg apart.symm, Option.some.injEq] at next
        subst next
        refine leaves_modf ((all.write (Or.inl partCanonical)).deliver fraction)
          (i := integerPart x) ?_ partCanonical (Store.write_cells_self ..) fraction
        unfold deliver
        rw [Store.write_cells_of_ne _ _ distinct]
        exact right

/-- One call that meets the condition keeps the invariant and delivers. -/
theorem step_leaves (all : AllHeld st) {op : Op} (sound : Sound st op)
    (next : step st op = some st') : Leaves op st' := by
  cases op with
  | add e1 e2 res =>
    simp only [step, bind_eq_bind, bind_eq_some_iff, Option.some.injEq] at next
    obtain ⟨x, left, y, right, rfl⟩ := next
    have inside := sound x y left right
    exact leaves_deliver all rfl (fltAdd_delivered_of_exits
      (fun yZero => (all _ _ left).canonical (inside.1 yZero))
      fun xZero _ => (all _ _ right).canonical (inside.2 xZero))
  | sub e1 e2 res => exact sub_leaves all sound next
  | mul e1 e2 res =>
    simp only [step, bind_eq_bind, bind_eq_some_iff, Option.some.injEq] at next
    obtain ⟨x, left, y, right, rfl⟩ := next
    exact leaves_deliver all rfl (fltMul_delivered_of_clean (all _ _ left) (all _ _ right)
      (sound x y left right))
  | div e1 e2 res =>
    simp only [step, bind_eq_bind, bind_eq_some_iff, Option.some.injEq] at next
    obtain ⟨x, left, y, right, rfl⟩ := next
    exact leaves_deliver all rfl (fltDiv_delivered x fun empty => sound ⟨y, right, empty⟩)
  | modf e ipart fpart => exact modf_leaves all sound next
  | arith2flt n e uns =>
    simp only [step, Option.some.injEq] at next
    subst next
    exact leaves_deliver all rfl (Or.inl (fltArith2flt_canonical n uns st.status))
  | str2flt s e =>
    simp only [step, Option.some.injEq] at next
    subst next
    exact leaves_deliver all rfl (fltStr2flt_delivered sound)

/-! ## Whole sequences -/

/-- The invariant holds in every store a sound sequence reaches. -/
theorem Run.allHeld {ops : List Op} (run : Run Sound ops st) : AllHeld st := by
  induction run with
  | nil =>
    intro l x found
    exact absurd found (by simp [Store.empty])
  | snoc before met next held => exact (step_leaves held met next).1

/-- In every sequence of calls that meet the condition, every result is
canonical unless its call reported an overflow, and a product with a zero
operand acts as zero. -/
theorem sound_sequence_canonical {ops : List Op} {op : Op} {st st' : Store}
    (run : Run Sound ops st) (sound : Sound st op) (next : step st op = some st') :
    CallCanonical st op st' := by
  have all := Run.allHeld run
  refine ⟨(step_leaves all sound next).2, ?_⟩
  rintro e1 e2 res rfl empty
  simp only [step, Option.bind_eq_bind, Option.bind_eq_some_iff, Option.some.injEq] at next
  obtain ⟨x, left, y, right, rfl⟩ := next
  have zeroOperand : x.mantissa = FltMantissa.zero ∨ y.mantissa = FltMantissa.zero := by
    rcases empty with ⟨x', found, isZero⟩ | ⟨y', found, isZero⟩
    · rw [left, Option.some.injEq] at found
      exact Or.inl (found ▸ isZero)
    · rw [right, Option.some.injEq] at found
      exact Or.inr (found ▸ isZero)
  rw [fltMul_zero (sound x y left right) zeroOperand]
  exact ⟨zero, Store.write_cells_self .., actsAsZero_zero⟩

/-- Zero times one, in a sequence that meets the condition. -/
theorem sound_sequence_canonical_zero_times_one :
    ∃ st st', Run Sound [.arith2flt 0 0 false, .arith2flt 1 1 false] st ∧ IsZero st 0 ∧
      step st (.mul 0 1 2) = some st' ∧ CallCanonical st (.mul 0 1 2) st' := by
  have run : Run Sound ([] ++ [.arith2flt 0 0 false] ++ [.arith2flt 1 1 false])
      (deliver (deliver Store.empty 0 (fltArith2flt 0 false .ok)) 1 (fltArith2flt 1 false .ok)) :=
    Run.snoc (Run.snoc Run.nil trivial rfl) trivial rfl
  refine ⟨_, _, run, ⟨zero, rfl, rfl⟩, rfl,
    sound_sequence_canonical run (fun x y left right => ?_) rfl⟩
  have isZero : x = zero := (Option.some.inj left).symm
  have isOne : y = (fltArith2flt 1 false .ok).1 := (Option.some.inj right).symm
  rw [isZero, isOne]
  decide

def minusHalf : List UInt8 := [0x2D, 0x30, 0x2E, 0x35]

theorem fltMul_zero_minusHalf :
    (fltMul zero (fltStr2flt minusHalf).1).1 = ⟨true, -1, FltMantissa.zero⟩ ∧
      (fltFlt2arith (fltMul zero (fltStr2flt minusHalf).1).1 false).1 = -1 := by
  decide +kernel

/-- Not every admissible sequence keeps its results canonical. -/
theorem zero_times_minus_half_not_canonical :
    ¬ ∀ (ops : List Op) (op : Op) (st st' : Store), Run Admissible ops st → Admissible st op →
      step st op = some st' → CallCanonical st op st' := by
  intro claim
  have run : Run Admissible ([] ++ [.arith2flt 0 0 false] ++ [.str2flt minusHalf 1])
      (deliver (deliver Store.empty 0 (fltArith2flt 0 false .ok)) 1 (fltStr2flt minusHalf)) :=
    Run.snoc (Run.snoc Run.nil trivial rfl) trivial rfl
  obtain ⟨p, found, acts⟩ := (claim _ (.mul 0 1 2) _ _ run trivial rfl).product 0 1 2 rfl
    (Or.inl ⟨zero, rfl, rfl⟩)
  have product : p = (fltMul zero (fltStr2flt minusHalf).1).1 := (Option.some.inj found).symm
  have converts := acts.converts false
  rw [product, fltMul_zero_minusHalf.2] at converts
  exact absurd converts (by decide)

end AckFormal.Flt.Canonical
