import AckFormal.Opt.Lines
import Mathlib.Data.List.Induction

/-!
# The element on top of the stack

The tables that `pop_push.awk` makes of `h/em_table`: what an instruction pops and pushes, and
its kind of jump.  The size of the element that an instruction leaves on top follows from the
last item of its row.
-/

namespace AckFormal.Opt

/-- The letters of the sizes in `pop_push`; `?` is `unknown`. -/
inductive Size where
  | w | d | p | a | x | y | unknown
  deriving DecidableEq

inductive Effect where
  | pop (size : Size)
  | push (size : Size)
  deriving DecidableEq

/-- The third column of `em_table`, empty for `0`; that of `cai` and `cal` is replaced. -/
def pop_push : Mnem → List Effect
  | .op_aar => [.pop .p, .pop .a, .pop .p, .push .p]
  | .op_adf | .op_adi | .op_adu | .op_and | .op_com | .op_dvf | .op_dvi | .op_dvu | .op_ior |
    .op_mlf | .op_mli | .op_mlu | .op_rmi | .op_rmu | .op_sbf | .op_sbi | .op_sbu | .op_xor =>
      [.pop .a, .pop .a, .push .a]
  | .op_adp | .op_dch | .op_lpb => [.pop .p, .push .p]
  | .op_ads => [.pop .a, .pop .p, .push .p]
  | .op_asp => [.pop .a]
  | .op_ass => [.pop .a, .pop .x]
  | .op_beq | .op_bge | .op_bgt | .op_ble | .op_blt | .op_bne => [.pop .w, .pop .w]
  | .op_blm => [.pop .p, .pop .p]
  | .op_bls => [.pop .a, .pop .p, .pop .p]
  | .op_bra | .op_dee | .op_del | .op_fil | .op_ine | .op_inl | .op_lin | .op_lni | .op_nop |
    .op_zre | .op_zrl => []
  | .op_cai | .op_cal | .op_rtt => [.pop .unknown]
  | .op_cff | .op_cfi | .op_cfu | .op_cif | .op_cii | .op_ciu | .op_cuf | .op_cui | .op_cuu =>
    [.pop .w, .pop .w, .pop .y, .push .x]
  | .op_cmf | .op_cmi | .op_cms | .op_cmu => [.pop .a, .pop .a, .push .w]
  | .op_cmp => [.pop .p, .pop .p, .push .w]
  | .op_csa | .op_csb | .op_sti => [.pop .p, .pop .a]
  | .op_dec | .op_inc | .op_teq | .op_tge | .op_tgt | .op_tle | .op_tlt | .op_tne =>
    [.pop .w, .push .w]
  | .op_dup => [.pop .a, .push .a, .push .a]
  | .op_dus => [.pop .a, .pop .x, .push .x, .push .x]
  | .op_exg | .op_fif => [.pop .a, .pop .a, .push .a, .push .a]
  | .op_fef => [.pop .a, .push .a, .push .w]
  | .op_gto => [.pop .p, .pop .unknown]
  | .op_inn => [.pop .w, .pop .a, .push .w]
  | .op_lae | .op_lal | .op_lor | .op_lpi | .op_lxa | .op_lxl => [.push .p]
  | .op_lar => [.pop .p, .pop .a, .pop .p, .push .unknown]
  | .op_ldc | .op_lde | .op_ldl => [.push .d]
  | .op_ldf => [.pop .p, .push .d]
  | .op_lfr | .op_zer | .op_zrf => [.push .a]
  | .op_lil | .op_lim | .op_loc | .op_loe | .op_lol => [.push .w]
  | .op_lof => [.pop .p, .push .w]
  | .op_loi => [.pop .p, .push .a]
  | .op_los => [.pop .a, .pop .p, .push .x]
  | .op_mon => [.pop .unknown, .push .unknown]
  | .op_ngf | .op_ngi => [.pop .a, .push .a]
  | .op_rck => [.pop .p, .pop .a, .push .a]
  | .op_ret => [.pop .a, .pop .unknown]
  | .op_rol | .op_ror | .op_sli | .op_slu | .op_sri | .op_sru => [.pop .w, .pop .a, .push .a]
  | .op_sar => [.pop .p, .pop .a, .pop .p, .pop .unknown]
  | .op_sbs => [.pop .p, .pop .p, .push .a]
  | .op_sde | .op_sdl => [.pop .d]
  | .op_sdf => [.pop .p, .pop .d]
  | .op_set => [.pop .w, .push .a]
  | .op_sig => [.pop .p, .pop .p, .push .p, .push .p]
  | .op_sil | .op_sim | .op_ste | .op_stl | .op_zeq | .op_zge | .op_zgt | .op_zle | .op_zlt |
    .op_zne => [.pop .w]
  | .op_stf => [.pop .p, .pop .w]
  | .op_str => [.pop .p]
  | .op_sts => [.pop .a, .pop .p, .pop .x]
  | .op_trp => [.pop .w, .push .unknown]

def ISABRANCH : Mnem → Bool
  | .op_beq | .op_bge | .op_bgt | .op_ble | .op_blt | .op_bne | .op_bra | .op_zeq | .op_zge |
    .op_zgt | .op_zle | .op_zlt | .op_zne => true
  | _ => false

def ISCONDBRANCH (i : Mnem) : Bool := em_flo i == .c

def NON_CONTINUABLE (i : Mnem) : Bool := em_flo i == .t

structure Sizes where
  wordsize : Nat
  pointersize : Nat

variable (em : Sizes)

def Operand.arg : Operand → Option Int
  | .OPSHORT n => some (if n < em.wordsize then em.wordsize else n)
  | .OPMINI n =>
    some (if 0 < n ∧ n < em.wordsize then em.wordsize
      else if n < 0 ∧ -n < em.wordsize then -em.wordsize
      else n)
  | _ => none

/-- The number of the instruction before, if that is a `loc` with a mini. -/
def locSize : Option Line → Int
  | some ⟨.op .op_loc, .OPMINI n⟩ => if n < em.wordsize then em.wordsize else n
  | _ => 0

def Size.value (instr : Mnem) (operand : Operand) (x y : Option Line) : Size → Int
  | .w => em.wordsize
  | .d => em.wordsize * 2
  | .p => em.pointersize
  | .a =>
    match operand.arg em with
    | none => 0
    | some arg => if instr = .op_ass then 0 else arg
  | .x => locSize em x
  | .y => locSize em y
  | .unknown => 0

/-- One turn of the loop along a row, with `stacktop` and `neg`. -/
def applyEffect (instr : Mnem) (operand : Operand) (x y : Option Line) (_ : Int × Bool) :
    Effect → Int × Bool
  | .pop size => (size.value em instr operand x y, true)
  | .push size => (size.value em instr operand x y, false)

def newStacktop (instr : Mnem) (operand : Operand) (x y : Option Line) (stacktop : Int) : Int :=
  let (stacktop, neg) := (pop_push instr).foldl (applyEffect em instr operand x y) (stacktop, false)
  let stacktop := if neg then -stacktop else stacktop
  if stacktop < 0 then 0 else stacktop

/-! ### What is known of the top -/

/-- The size that is known of the top behind an instruction, where `none` is the size before:
that of the element pushed last, or nothing where the last element is popped; `asp` with a
negative argument makes room. -/
def knownTop (instr : Mnem) (operand : Operand) (x : Option Line) : Option Int :=
  match (pop_push instr).getLast? with
  | none => none
  | some (.push size) => some (max 0 (size.value em instr operand x none))
  | some (.pop .a) => some (max 0 (-(Size.a.value em instr operand x none)))
  | some (.pop _) => some 0

variable {em} {instr : Mnem} {operand : Operand} {x y : Option Line}

theorem pop_push_last (instr : Mnem) :
    (pop_push instr).getLast? ≠ some (.pop .y) ∧ (pop_push instr).getLast? ≠ some (.push .y) := by
  cases instr <;> decide

theorem locSize_nonneg (x : Option Line) : 0 ≤ locSize em x := by
  unfold locSize
  split
  · split <;> omega
  · exact Int.le_refl 0

theorem foldl_applyEffect (row : List Effect) (top : Int × Bool) :
    row.foldl (applyEffect em instr operand x y) top =
      match row.getLast? with
      | none => top
      | some effect => applyEffect em instr operand x y top effect := by
  induction row using List.reverseRecOn with
  | nil => rfl
  | append_singleton row effect _ =>
    rw [List.foldl_append, List.getLast?_append]
    cases effect <;> rfl

theorem Size.value_y {size : Size} (other : size ≠ .y) :
    size.value em instr operand x y = size.value em instr operand x none := by
  cases size <;> first | rfl | exact absurd rfl other

theorem Size.value_nonneg {size : Size} (other : size ≠ .a) :
    0 ≤ size.value em instr operand x y := by
  cases size with
  | a => exact absurd rfl other
  | w => exact Int.natCast_nonneg _
  | d => exact Int.mul_nonneg (Int.natCast_nonneg _) (by decide)
  | p => exact Int.natCast_nonneg _
  | x => exact locSize_nonneg x
  | y => exact locSize_nonneg y
  | unknown => exact Int.le_refl 0

theorem knownTop_nonneg {top : Int} (known : knownTop em instr operand x = some top) :
    0 ≤ top := by
  unfold knownTop at known
  split at known <;> cases known <;> omega

/-- The loop along the row leaves what is known of the top. -/
theorem newStacktop_eq {stacktop : Int} (nonneg : 0 ≤ stacktop) :
    newStacktop em instr operand x y stacktop = (knownTop em instr operand x).getD stacktop := by
  obtain ⟨noPop, noPush⟩ := pop_push_last instr
  unfold newStacktop knownTop
  rw [foldl_applyEffect]
  cases last : (pop_push instr).getLast? with
  | none => simp [Int.not_lt.mpr nonneg]
  | some effect =>
    rw [last] at noPop noPush
    cases effect with
    | push size =>
      have same : size.value em instr operand x y = size.value em instr operand x none :=
        Size.value_y fun is_y => noPush (by rw [is_y])
      simp only [applyEffect, Bool.false_eq_true, if_false, Option.getD_some]
      omega
    | pop size =>
      have same : size.value em instr operand x y = size.value em instr operand x none :=
        Size.value_y fun is_y => noPop (by rw [is_y])
      simp only [applyEffect, if_true]
      by_cases is_a : size = .a
      · subst is_a
        simp only [Option.getD_some]
        omega
      · have nonneg := @Size.value_nonneg em instr operand x none size is_a
        cases size <;> first | exact absurd rfl is_a | (simp only [Option.getD_some]; omega)

theorem knownTop_condbranch (cond : ISCONDBRANCH instr = true) :
    knownTop em instr operand x = some 0 := by
  cases instr <;> first | rfl | exact absurd cond (by decide)

theorem condbranch_of_continuable (branch : ISABRANCH instr = true)
    (goesOn : NON_CONTINUABLE instr = false) : ISCONDBRANCH instr = true := by
  revert branch goesOn
  cases instr <;> decide

end AckFormal.Opt
