import Mathlib.Data.BitVec

/-!
# Types of assembler expressions

The productions of `expr` in `as/comm2.y` with `combine`, `load` and `store` of `as/comm7.c`.
An expression has a value and a type: absolute, undefined, or relative to a section.  The bases
of the sections enter through the labels and the location counter; the type says how the value
moves with them.  Arithmetic that does not fit `valu_t`, and a shift by a count out of range,
have no value.
-/

namespace AckFormal.As.ExprTypes

open Option (bind_eq_bind bind_eq_some_iff bind_some)

abbrev Typ := BitVec 16

def S_TYP : Typ := 0x007F
def S_EXT : Typ := 0x0080
def S_UND : Typ := 0x0000
def S_ABS : Typ := 0x0001
def S_MIN : Typ := 0x0002
def S_COM : Typ := 0x1000
def S_VAR : Typ := 0x0200
def S_DOT : Typ := 0x0400

abbrev SECTMAX : Nat := 64

abbrev Sect := Fin SECTMAX

def sectType (s : Sect) : Typ := S_MIN + BitVec.ofNat 16 s

inductive Pass where
  | PASS_1 | PASS_2 | PASS_3
  deriving DecidableEq

inductive Message where
  | illegalOperator
  | divideByZero
  | tooManyChars
  | relocationError
  deriving DecidableEq

structure Item where
  i_type : Typ
  i_valu : Int

structure ExprT where
  val : Int
  typ : Typ
  deriving DecidableEq

structure State where
  relonami : Int
  errors : List Message
  deriving DecidableEq

def State.serror (st : State) (messages : List Message) : State :=
  { st with errors := st.errors ++ messages }

def valu (n : Int) : Option Int := if -2 ^ 63 ≤ n ∧ n < 2 ^ 63 then some n else none

inductive AddrT where
  | unsignedShort | uint32_t | long

def AddrT.convert : AddrT → Int → Option Int
  | .unsignedShort, n => some (n % 2 ^ 16)
  | .uint32_t, n => some (n % 2 ^ 32)
  | .long, n => valu n

/-- What an assembly is run with: whether it also links, its pass, the type of addresses, and the
place of the location counter in a section. -/
structure Setting where
  asld : Bool
  pass : Pass
  addr : AddrT
  dotSect : Sect
  dotSize : Int

/-! ### Items -/

/-- The index of the section of a type, after `typ -= S_MIN`. -/
def sectOf (typ : Typ) : Option Sect :=
  if bound : 2 ≤ typ.toNat ∧ typ.toNat - 2 < SECTMAX then some ⟨typ.toNat - 2, bound.2⟩ else none

def load (env : Setting) (base : Sect → Int) (ip : Item) (st : State) : Option (Int × State) :=
  if env.asld then
    if (ip.i_type &&& S_TYP).toNat < 2 then some (ip.i_valu, st)
    else do
      let s ← sectOf (ip.i_type &&& S_TYP)
      let val ← valu (ip.i_valu + base s)
      some (val, st)
  else if ip.i_type &&& S_TYP = S_UND ∨ ip.i_type &&& S_COM ≠ 0 then
    if env.pass = .PASS_3 then
      let st := if st.relonami ≠ 0 then st.serror [.relocationError] else st
      some (0, { st with relonami := ip.i_valu + 1 })
    else some (0, st)
  else some (ip.i_valu, st)

def store (env : Setting) (base : Sect → Int) (ip : Item) (val : Int) : Option Item :=
  if env.asld then
    if (ip.i_type &&& S_TYP).toNat < 2 then some { ip with i_valu := val }
    else do
      let s ← sectOf (ip.i_type &&& S_TYP)
      let val ← valu (val - base s)
      some { ip with i_valu := val }
  else if ip.i_type &&& S_TYP = S_UND then some ip
  else some { ip with i_valu := val }

/-- `newlabel` where `DOTTYP` and `DOTVAL` are given. -/
def newlabel (env : Setting) (base : Sect → Int) (ip : Item) (dottyp : Typ) (dotval : Int) :
    Option Item :=
  store env base { ip with i_type := (ip.i_type &&& ~~~S_TYP) ||| dottyp } dotval

/-- What an identifier or a numeric label names: a number, a label at an offset from the base of
its section, or a symbol that is not defined. -/
inductive Symbol where
  | absolute (v : Int)
  | label (s : Sect) (offset : Int)
  | undefined (index : Int)

def Symbol.item (env : Setting) (base : Sect → Int) : Symbol → Option Item
  | .absolute v => some ⟨S_ABS, v⟩
  | .label s offset => do
      let dotval ← env.addr.convert (offset + base s)
      newlabel env base ⟨S_UND, 0⟩ (sectType s) dotval
  | .undefined index => some ⟨S_UND ||| S_EXT, index⟩

/-! ### Operators -/

inductive Rule where
  | plus
  | minus
  | greater
  | other

def combine (pass : Pass) (typ1 typ2 : Typ) (op : Rule) : Typ × List Message :=
  let illegal := (S_UND, if pass ≠ .PASS_1 then [Message.illegalOperator] else [])
  match op with
  | .plus =>
    if typ1 = S_ABS then (typ2, [])
    else if typ2 = S_ABS then (typ1, [])
    else illegal
  | .minus =>
    if typ2 = S_ABS then (typ1, [])
    else if typ1 &&& ~~~S_DOT = typ2 &&& ~~~S_DOT ∧ typ1 ≠ S_UND then (S_ABS ||| S_VAR, [])
    else illegal
  | .greater =>
    if typ1 = S_ABS ∧ typ2 = S_ABS then (S_ABS, [])
    else if (typ1 &&& ~~~S_DOT = typ2 &&& ~~~S_DOT ∧ typ1 ≠ S_UND) ∨ typ1 = S_ABS ∨ typ2 = S_ABS
    then (S_ABS ||| S_VAR, [])
    else illegal
  | .other => if typ1 = S_ABS ∧ typ2 = S_ABS then (S_ABS, []) else illegal

inductive Binary where
  | OP_OO | OP_AA | or | xor | and
  | OP_EQ | OP_NE | less | greater | OP_LE | OP_GE
  | OP_RR | OP_LL | plus | minus | times | divide | modulo

def Binary.rule : Binary → Rule
  | .OP_EQ | .OP_NE | .less | .greater | .OP_LE | .OP_GE => .greater
  | .plus => .plus
  | .minus => .minus
  | _ => .other

def truth (p : Prop) [Decidable p] : Int := if p then 1 else 0

def bitwise (op : BitVec 64 → BitVec 64 → BitVec 64) (a b : Int) : Int :=
  (op (BitVec.ofInt 64 a) (BitVec.ofInt 64 b)).toInt

def Binary.value (pass : Pass) (op : Binary) (a b : Int) : Option (Int × List Message) :=
  let byZero := some (0, if pass = .PASS_3 then [Message.divideByZero] else [])
  match op with
  | .OP_OO => some (truth (a ≠ 0 ∨ b ≠ 0), [])
  | .OP_AA => some (truth (a ≠ 0 ∧ b ≠ 0), [])
  | .or => some (bitwise (· ||| ·) a b, [])
  | .xor => some (bitwise (· ^^^ ·) a b, [])
  | .and => some (bitwise (· &&& ·) a b, [])
  | .OP_EQ => some (truth (a = b), [])
  | .OP_NE => some (truth (a ≠ b), [])
  | .less => some (truth (a < b), [])
  | .greater => some (truth (a > b), [])
  | .OP_LE => some (truth (a ≤ b), [])
  | .OP_GE => some (truth (a ≥ b), [])
  | .OP_RR => if 0 ≤ b ∧ b < 64 then some (a / 2 ^ b.toNat, []) else none
  | .OP_LL =>
    if 0 ≤ b ∧ b < 64 then some ((BitVec.ofInt 64 a <<< b.toNat).toInt, []) else none
  | .plus => (valu (a + b)).map fun v => (v, [])
  | .minus => (valu (a - b)).map fun v => (v, [])
  | .times => (valu (a * b)).map fun v => (v, [])
  | .divide => if b = 0 then byZero else (valu (a.tdiv b)).map fun v => (v, [])
  | .modulo => if b = 0 then byZero else (valu (a.tdiv b)).map fun _ => (a.tmod b, [])

inductive Unary where
  | plus | minus | complement

def Unary.value (op : Unary) (a : Int) : Option Int :=
  match op with
  | .plus => some a
  | .minus => valu (-a)
  | .complement => some (~~~BitVec.ofInt 64 a).toInt

/-! ### Expressions -/

inductive Expr where
  | NUMBER8 (n : Int)
  | id_fb (ip : Symbol)
  | STRING (stringbuf : List Int8)
  | brackets (e : Expr)
  | binary (op : Binary) (e1 e2 : Expr)
  | unary (op : Unary) (e : Expr)
  | DOT

def expr (env : Setting) (base : Sect → Int) : Expr → State → Option (ExprT × State)
  | .NUMBER8 n, st => some (⟨n, S_ABS⟩, st)
  | .id_fb symbol, st => do
      let ip ← symbol.item env base
      let (val, st) ← load env base ip st
      some (⟨val, ip.i_type &&& ~~~S_EXT⟩, st)
  | .STRING stringbuf, st =>
    let st := if stringbuf.length ≠ 1 then st.serror [.tooManyChars] else st
    some (⟨(stringbuf.headD 0).toInt, S_ABS⟩, st)
  | .brackets e, st => expr env base e st
  | .binary op e1 e2, st => do
      let (r1, st) ← expr env base e1 st
      let (r2, st) ← expr env base e2 st
      let (val, messages) ← op.value env.pass r1.val r2.val
      let (typ, illegal) := combine env.pass r1.typ r2.typ op.rule
      some (⟨val, typ⟩, st.serror (messages ++ illegal))
  | .unary op e, st => do
      let (r, st) ← expr env base e st
      let val ← op.value r.val
      let (typ, illegal) := combine env.pass S_ABS r.typ .other
      some (⟨val, typ⟩, st.serror illegal)
  | .DOT, st => do
      let dotval ← env.addr.convert (env.dotSize + base env.dotSect)
      some (⟨dotval, sectType env.dotSect ||| S_DOT⟩, st)

/-! ### Kinds -/

/-- The types that expressions have: `var` is an absolute type whose value may vary. -/
inductive Kind where
  | und
  | abs
  | var
  | rel (s : Sect) (dot : Bool)
  deriving DecidableEq

def Kind.typ : Kind → Typ
  | .und => S_UND
  | .abs => S_ABS
  | .var => S_ABS ||| S_VAR
  | .rel s false => sectType s
  | .rel s true => sectType s ||| S_DOT

def Kind.undot : Kind → Kind
  | .rel s _ => .rel s false
  | k => k

theorem sectType_toNat (s : Sect) : (sectType s).toNat = 2 + s := by
  revert s
  decide

theorem sectType_masks (s : Sect) :
    sectType s &&& S_TYP = sectType s ∧ (sectType s ||| S_DOT) &&& S_TYP = sectType s ∧
      sectType s &&& ~~~S_DOT = sectType s ∧ (sectType s ||| S_DOT) &&& ~~~S_DOT = sectType s ∧
      sectType s &&& ~~~S_EXT = sectType s ∧ sectType s &&& S_COM = 0 := by
  revert s
  decide

variable {s : Sect} {k : Kind} {v : Int} {op : Binary} {env : Setting} {base base' : Sect → Int}
  {st st' : State}

theorem sectType_injective {s' : Sect} (same : sectType s = sectType s') : s = s' := by
  have numbers := congrArg BitVec.toNat same
  rw [sectType_toNat, sectType_toNat] at numbers
  exact Fin.ext (Nat.add_left_cancel numbers)

@[simp] theorem Kind.typ_eq_abs : k.typ = S_ABS ↔ k = .abs := by
  cases k with
  | rel s dot =>
    revert s dot
    decide
  | _ => decide

@[simp] theorem Kind.typ_eq_und : k.typ = S_UND ↔ k = .und := by
  cases k with
  | rel s dot =>
    revert s dot
    decide
  | _ => decide

theorem Kind.mask_eq_abs : k.typ &&& S_TYP = S_ABS ↔ k = .abs ∨ k = .var := by
  cases k with
  | rel s dot =>
    revert s dot
    decide
  | _ => decide

theorem Kind.mask_eq_sect : k.typ &&& S_TYP = sectType s ↔ ∃ dot, k = .rel s dot := by
  have ours : ∀ s', (sectType s' = sectType s ↔ s' = s) := fun s' =>
    ⟨sectType_injective, congrArg sectType⟩
  have apart : ∀ s, S_UND &&& S_TYP ≠ sectType s ∧ S_ABS &&& S_TYP ≠ sectType s ∧
      (S_ABS ||| S_VAR) &&& S_TYP ≠ sectType s := by
    decide
  obtain ⟨noUnd, noAbs, noVar⟩ := apart s
  cases k with
  | rel s' dot => cases dot <;> simp [typ, sectType_masks, ours]
  | und => exact ⟨fun same => absurd same noUnd, fun ⟨_, is⟩ => (nomatch is)⟩
  | abs => exact ⟨fun same => absurd same noAbs, fun ⟨_, is⟩ => (nomatch is)⟩
  | var => exact ⟨fun same => absurd same noVar, fun ⟨_, is⟩ => (nomatch is)⟩

theorem Kind.typ_undot (k : Kind) : k.typ &&& ~~~S_DOT = k.undot.typ := by
  cases k with
  | rel s dot => cases dot <;> simp [typ, undot, sectType_masks]
  | _ => decide

theorem Kind.typ_undot_injective {k' : Kind} (same : k.undot.typ = k'.undot.typ) :
    k.undot = k'.undot := by
  have apart : ∀ s, sectType s ≠ S_UND ∧ sectType s ≠ S_ABS ∧ sectType s ≠ S_ABS ||| S_VAR := by
    decide
  cases k with
  | rel s dot =>
    cases k' with
    | rel s' dot' => exact congrArg (Kind.rel · false) (sectType_injective same)
    | und => exact absurd same (apart s).1
    | abs => exact absurd same (apart s).2.1
    | var => exact absurd same (apart s).2.2
  | und | abs | var =>
    cases k' with
    | rel s' dot' =>
      first
        | exact absurd same.symm (apart s').1
        | exact absurd same.symm (apart s').2.1
        | exact absurd same.symm (apart s').2.2
    | und | abs | var =>
      revert same
      decide

theorem Kind.mask_eq {k' : Kind} :
    k.typ &&& ~~~S_DOT = k'.typ &&& ~~~S_DOT ↔ k.undot = k'.undot := by
  rw [typ_undot, typ_undot]
  exact ⟨typ_undot_injective, congrArg typ⟩

def Kind.combine (k1 k2 : Kind) : Rule → Kind
  | .plus => if k1 = .abs then k2 else if k2 = .abs then k1 else .und
  | .minus =>
    if k2 = .abs then k1 else if k1.undot = k2.undot ∧ k1 ≠ .und then .var else .und
  | .greater =>
    if k1 = .abs ∧ k2 = .abs then .abs
    else if (k1.undot = k2.undot ∧ k1 ≠ .und) ∨ k1 = .abs ∨ k2 = .abs then .var
    else .und
  | .other => if k1 = .abs ∧ k2 = .abs then .abs else .und

theorem combine_typ (pass : Pass) (k1 k2 : Kind) (op : Rule) :
    (combine pass k1.typ k2.typ op).1 = (k1.combine k2 op).typ := by
  cases op <;>
    simp only [ExprTypes.combine, Kind.combine, Kind.typ_eq_abs, Kind.mask_eq, ne_eq,
      Kind.typ_eq_und] <;>
    split_ifs <;> rfl

/-! ### Values under two placements -/

/-- How a value of a kind moves with the bases; the value of a `var` stays when `alike` holds. -/
def Kind.Moves (base base' : Sect → Int) (alike : Prop) : Kind → Int → Int → Prop
  | .und, _, _ => True
  | .abs, v, v' => v' = v
  | .var, v, v' => alike → v' = v
  | .rel s _, v, v' => v' = v + (base' s - base s)

/-- Operands of a comparison are both absolute as soon as one is a fixed number. -/
def Kind.Comparable (k1 k2 : Kind) : Prop :=
  k1 = .abs ∨ k2 = .abs → (k1 = .abs ∨ k1 = .var) ∧ (k2 = .abs ∨ k2 = .var)

theorem valu_eq {n : Int} (value : valu n = some v) : v = n := by
  unfold valu at value
  split at value
  · exact (Option.some.inj value).symm
  · exact nomatch value

theorem map_valu_eq {n : Int} {messages : List Message}
    (value : (valu n).map (fun v => (v, ([] : List Message))) = some (v, messages)) : v = n := by
  obtain ⟨_, inside, same⟩ := Option.map_eq_some_iff.mp value
  rw [← (Prod.mk.inj same).1]
  exact valu_eq inside

/-- A comparison depends on the difference of its operands only. -/
theorem value_greater (greater : op.rule = .greater) (pass : Pass) (a b d : Int) :
    op.value pass (a + d) (b + d) = op.value pass a b := by
  cases op with
  | OP_EQ | OP_NE | less | greater | OP_LE | OP_GE => simp [Binary.value]
  | _ => exact nomatch greater

section

variable {base base' : Sect → Int} {pass : Pass} {op : Binary} {k1 k2 : Kind}
  {a a' b b' v v' : Int} {messages messages' : List Message}

variable {alike1 alike2 : Prop}

section

variable (first : k1.Moves base base' alike1 a a') (second : k2.Moves base base' alike2 b b')
include first second

theorem moves_plus :
    (k1.combine k2 .plus).Moves base base' (alike1 ∧ alike2) (a + b) (a' + b') := by
  unfold Kind.combine
  dsimp only
  split_ifs with abs1 abs2
  · subst abs1
    cases k2 with
    | und => trivial
    | abs => exact congrArg₂ (· + ·) first second
    | var => exact fun alike => congrArg₂ (· + ·) first (second alike.2)
    | rel s dot =>
      simp only [Kind.Moves] at first second ⊢
      omega
  · subst abs2
    cases k1 with
    | und => trivial
    | abs => exact congrArg₂ (· + ·) first second
    | var => exact fun alike => congrArg₂ (· + ·) (first alike.1) second
    | rel s dot =>
      simp only [Kind.Moves] at first second ⊢
      omega
  · trivial

theorem moves_together (same : k1.undot = k2.undot) (known : k1 ≠ .und) :
    alike1 ∧ alike2 → ∃ d, a' = a + d ∧ b' = b + d := by
  intro alike
  cases k1 with
  | und => exact absurd rfl known
  | abs =>
    cases k2 with
    | abs => exact ⟨0, Eq.trans first (Int.add_zero a).symm, Eq.trans second (Int.add_zero b).symm⟩
    | _ => exact nomatch same
  | var =>
    cases k2 with
    | var => exact ⟨0, by simpa using first alike.1, by simpa using second alike.2⟩
    | _ => exact nomatch same
  | rel s dot =>
    cases k2 with
    | rel s' dot' =>
      obtain ⟨rfl, -⟩ := Kind.rel.inj same
      exact ⟨_, first, second⟩
    | _ => exact nomatch same

theorem moves_minus :
    (k1.combine k2 .minus).Moves base base' (alike1 ∧ alike2) (a - b) (a' - b') := by
  unfold Kind.combine
  dsimp only
  split_ifs with abs2 same
  · subst abs2
    cases k1 with
    | und => trivial
    | abs => exact congrArg₂ (· - ·) first second
    | var => exact fun alike => congrArg₂ (· - ·) (first alike.1) second
    | rel s dot =>
      simp only [Kind.Moves] at first second ⊢
      omega
  · intro alike
    obtain ⟨d, moved, moved'⟩ := moves_together first second same.1 same.2 alike
    omega
  · trivial

theorem moves_greater (greater : op.rule = .greater)
    (value : op.value pass a b = some (v, messages))
    (value' : op.value pass a' b' = some (v', messages')) :
    (k1.combine k2 .greater).Moves base base' (alike1 ∧ alike2 ∧ k1.Comparable k2) v v' := by
  have together : (∃ d, a' = a + d ∧ b' = b + d) → v' = v := by
    rintro ⟨d, rfl, rfl⟩
    rw [value_greater greater, value] at value'
    exact (Prod.mk.inj (Option.some.inj value')).1.symm
  unfold Kind.combine
  dsimp only
  split_ifs with both either
  · obtain ⟨rfl, rfl⟩ := both
    exact together ⟨0, Eq.trans first (Int.add_zero a).symm, Eq.trans second (Int.add_zero b).symm⟩
  · rintro ⟨alike1, alike2, comparable⟩
    rcases either with ⟨same, known⟩ | one
    · exact together (moves_together first second same known ⟨alike1, alike2⟩)
    · obtain ⟨abs1, abs2⟩ := comparable one
      refine together ⟨0, ?_, ?_⟩
      · rcases abs1 with rfl | rfl
        · exact Eq.trans first (Int.add_zero a).symm
        · simpa using first alike1
      · rcases abs2 with rfl | rfl
        · exact Eq.trans second (Int.add_zero b).symm
        · simpa using second alike2
  · trivial

end

theorem moves_other {alike : Prop} (first : k1.Moves base base' alike1 a a')
    (second : k2.Moves base base' alike2 b b') (value : op.value pass a b = some (v, messages))
    (value' : op.value pass a' b' = some (v', messages')) :
    (k1.combine k2 .other).Moves base base' alike v v' := by
  unfold Kind.combine
  dsimp only
  split_ifs with both
  · obtain ⟨rfl, rfl⟩ := both
    obtain rfl : a' = a := first
    obtain rfl : b' = b := second
    rw [value] at value'
    exact (Prod.mk.inj (Option.some.inj value')).1.symm
  · trivial

end

/-! ### Types of expressions -/

def typeOf (env : Setting) : Expr → Typ
  | .NUMBER8 _ => S_ABS
  | .id_fb (.absolute _) => S_ABS
  | .id_fb (.label s _) => sectType s
  | .id_fb (.undefined _) => S_UND
  | .STRING _ => S_ABS
  | .brackets e => typeOf env e
  | .binary op e1 e2 => (combine env.pass (typeOf env e1) (typeOf env e2) op.rule).1
  | .unary _ e => (combine env.pass S_ABS (typeOf env e) .other).1
  | .DOT => sectType env.dotSect ||| S_DOT

def kindOf (env : Setting) : Expr → Kind
  | .NUMBER8 _ => .abs
  | .id_fb (.absolute _) => .abs
  | .id_fb (.label s _) => .rel s false
  | .id_fb (.undefined _) => .und
  | .STRING _ => .abs
  | .brackets e => kindOf env e
  | .binary op e1 e2 => (kindOf env e1).combine (kindOf env e2) op.rule
  | .unary _ e => Kind.combine .abs (kindOf env e) .other
  | .DOT => .rel env.dotSect true

/-- No comparison in the expression is between a number and something relative or undefined. -/
def Alike (env : Setting) : Expr → Prop
  | .brackets e => Alike env e
  | .binary op e1 e2 =>
    Alike env e1 ∧ Alike env e2 ∧
      (op.rule = .greater → typeOf env e1 = S_ABS ∨ typeOf env e2 = S_ABS →
        typeOf env e1 &&& S_TYP = S_ABS ∧ typeOf env e2 &&& S_TYP = S_ABS)
  | .unary _ e => Alike env e
  | _ => True

/-- The labels of the expression, and the location counter, have their addresses in `ADDR_T`. -/
def Placed (env : Setting) (base : Sect → Int) : Expr → Prop
  | .id_fb (.label s offset) => env.addr.convert (offset + base s) = some (offset + base s)
  | .brackets e => Placed env base e
  | .binary _ e1 e2 => Placed env base e1 ∧ Placed env base e2
  | .unary _ e => Placed env base e
  | .DOT =>
    env.addr.convert (env.dotSize + base env.dotSect) = some (env.dotSize + base env.dotSect)
  | _ => True

theorem typeOf_eq (env : Setting) (e : Expr) : typeOf env e = (kindOf env e).typ := by
  induction e with
  | NUMBER8 n => rfl
  | id_fb symbol => cases symbol <;> rfl
  | STRING stringbuf => rfl
  | brackets e ih => exact ih
  | binary op e1 e2 ih1 ih2 =>
    rw [typeOf, ih1, ih2, combine_typ]
    rfl
  | unary op e ih =>
    rw [typeOf, ih]
    exact combine_typ env.pass .abs _ .other
  | DOT => rfl

theorem Alike.comparable {e1 e2 : Expr} (alike : Alike env (.binary op e1 e2))
    (greater : op.rule = .greater) : (kindOf env e1).Comparable (kindOf env e2) := by
  have types := alike.2.2 greater
  simp only [typeOf_eq, Kind.typ_eq_abs, Kind.mask_eq_abs] at types
  exact types

theorem sectOf_sectType (s : Sect) : sectOf (sectType s) = some s := by
  revert s
  decide

theorem newlabel_type (s : Sect) : (S_UND &&& ~~~S_TYP) ||| sectType s = sectType s := by
  revert s
  decide

/-- Loading a label gives the address it was stored with. -/
theorem load_label {dotval : Int} {ip : Item} {val : Int}
    (stored : newlabel env base ⟨S_UND, 0⟩ (sectType s) dotval = some ip)
    (loaded : load env base ip st = some (val, st')) : val = dotval ∧ ip.i_type = sectType s := by
  have large : ¬ (sectType s).toNat < 2 := by
    rw [sectType_toNat]
    omega
  have known : sectType s ≠ S_UND := fun same => large (by rw [same]; decide)
  have index := sectOf_sectType s
  have clear := newlabel_type s
  obtain ⟨masked, -, -, -, -, plain⟩ := sectType_masks s
  unfold newlabel store at stored
  simp only [clear, masked] at stored
  unfold load at loaded
  cases asld : env.asld with
  | true =>
    simp only [asld, if_true, if_neg large, index, bind_eq_bind, bind_some,
      bind_eq_some_iff, Option.some.injEq] at stored
    obtain ⟨offset, moved, rfl⟩ := stored
    simp only [asld, if_true, masked, if_neg large, index, bind_eq_bind,
      bind_some, bind_eq_some_iff, Option.some.injEq, Prod.mk.injEq] at loaded
    obtain ⟨_, back, rfl, -⟩ := loaded
    refine ⟨?_, rfl⟩
    rw [valu_eq back, valu_eq moved]
    omega
  | false =>
    simp only [asld, if_neg known, Bool.false_eq_true, if_false, Option.some.injEq] at stored
    subst stored
    simp only [asld, masked, plain, known, Bool.false_eq_true, if_false, ne_eq, not_true_eq_false,
      or_self, Option.some.injEq, Prod.mk.injEq] at loaded
    exact ⟨loaded.1.symm, rfl⟩

/-- The type that an expression gets is the one of its symbols. -/
theorem expr_typ {e : Expr} {r : ExprT} (run : expr env base e st = some (r, st')) :
    r.typ = typeOf env e := by
  induction e generalizing st st' r with
  | NUMBER8 n =>
    cases run
    rfl
  | id_fb symbol =>
    obtain ⟨ip, found, rest⟩ := bind_eq_some_iff.mp run
    obtain ⟨⟨val, _⟩, loaded, same⟩ := bind_eq_some_iff.mp rest
    cases same
    cases symbol with
    | absolute v =>
      cases found
      change S_ABS &&& ~~~S_EXT = S_ABS
      decide
    | label s offset =>
      obtain ⟨dotval, -, stored⟩ := bind_eq_some_iff.mp found
      rw [(load_label stored loaded).2]
      exact (sectType_masks s).2.2.2.2.1
    | undefined index =>
      cases found
      change (S_UND ||| S_EXT) &&& ~~~S_EXT = S_UND
      decide
  | STRING stringbuf =>
    cases run
    rfl
  | brackets e ih => exact ih run
  | binary op e1 e2 ih1 ih2 =>
    obtain ⟨⟨r1, st1⟩, run1, rest⟩ := bind_eq_some_iff.mp run
    obtain ⟨⟨r2, st2⟩, run2, rest⟩ := bind_eq_some_iff.mp rest
    obtain ⟨⟨val, messages⟩, -, same⟩ := bind_eq_some_iff.mp rest
    cases same
    rw [ih1 run1, ih2 run2]
    rfl
  | unary op e ih =>
    obtain ⟨⟨r1, st1⟩, run1, rest⟩ := bind_eq_some_iff.mp run
    obtain ⟨val, -, same⟩ := bind_eq_some_iff.mp rest
    cases same
    rw [ih run1]
    rfl
  | DOT =>
    obtain ⟨dotval, -, same⟩ := bind_eq_some_iff.mp run
    cases same
    rfl

theorem Kind.Moves.mono {alike alike' : Prop} {v' : Int} (moves : k.Moves base base' alike v v')
    (weaker : alike' → alike) : k.Moves base base' alike' v v' := by
  cases k with
  | var => exact fun holds => moves (weaker holds)
  | und | abs | rel s dot => exact moves

theorem moves_binary {e1 e2 : Expr} {a a' b b' v' : Int} {messages messages' : List Message}
    (first : (kindOf env e1).Moves base base' (Alike env e1) a a')
    (second : (kindOf env e2).Moves base base' (Alike env e2) b b')
    (value : op.value env.pass a b = some (v, messages))
    (value' : op.value env.pass a' b' = some (v', messages')) :
    (kindOf env (.binary op e1 e2)).Moves base base' (Alike env (.binary op e1 e2)) v v' := by
  change ((kindOf env e1).combine (kindOf env e2) op.rule).Moves _ _ _ _ _
  cases rule : op.rule with
  | plus =>
    obtain rfl : op = .plus := by cases op <;> first | rfl | exact nomatch rule
    rw [map_valu_eq value, map_valu_eq value']
    exact (moves_plus first second).mono fun alike => ⟨alike.1, alike.2.1⟩
  | minus =>
    obtain rfl : op = .minus := by cases op <;> first | rfl | exact nomatch rule
    rw [map_valu_eq value, map_valu_eq value']
    exact (moves_minus first second).mono fun alike => ⟨alike.1, alike.2.1⟩
  | greater =>
    refine (moves_greater first second rule value value').mono fun alike => ?_
    exact ⟨alike.1, alike.2.1, alike.comparable rule⟩
  | other => exact moves_other first second value value'

/-- How the value of an expression moves with the bases is the way of its kind. -/
theorem expr_kind_moves {e : Expr} {last last' : State} {r r' : ExprT}
    (run : expr env base e st = some (r, last)) (run' : expr env base' e st' = some (r', last'))
    (placed : Placed env base e) (placed' : Placed env base' e) :
    (kindOf env e).Moves base base' (Alike env e) r.val r'.val := by
  induction e generalizing st st' last last' r r' with
  | NUMBER8 n =>
    cases run
    cases run'
    rfl
  | id_fb symbol =>
    obtain ⟨ip, found, rest⟩ := bind_eq_some_iff.mp run
    obtain ⟨⟨val, _⟩, loaded, same⟩ := bind_eq_some_iff.mp rest
    cases same
    obtain ⟨ip', found', rest⟩ := bind_eq_some_iff.mp run'
    obtain ⟨⟨val', _⟩, loaded', same⟩ := bind_eq_some_iff.mp rest
    cases same
    cases symbol with
    | absolute v =>
      cases found
      cases found'
      have plain : ∀ (base : Sect → Int) {st st' : State} {val : Int},
          load env base ⟨S_ABS, v⟩ st = some (val, st') → val = v := by
        intro base st st' val loaded
        have small : (S_ABS &&& S_TYP).toNat < 2 := by decide
        have other : ¬ (S_ABS &&& S_TYP = S_UND ∨ S_ABS &&& S_COM ≠ 0) := by decide
        unfold load at loaded
        simp only [if_pos small, if_neg other, ite_self, Option.some.injEq, Prod.mk.injEq] at loaded
        exact loaded.1.symm
      exact (plain base' loaded').trans (plain base loaded).symm
    | label s offset =>
      obtain ⟨dotval, address, stored⟩ := bind_eq_some_iff.mp found
      obtain ⟨dotval', address', stored'⟩ := bind_eq_some_iff.mp found'
      rw [show env.addr.convert _ = _ from placed] at address
      rw [show env.addr.convert _ = _ from placed'] at address'
      have here := (load_label stored loaded).1
      have there := (load_label stored' loaded').1
      change val' = val + (base' s - base s)
      rw [here, there, ← Option.some.inj address, ← Option.some.inj address']
      omega
    | undefined index => trivial
  | STRING stringbuf =>
    cases run
    cases run'
    rfl
  | brackets e ih => exact ih run run' placed placed'
  | binary op e1 e2 ih1 ih2 =>
    obtain ⟨⟨r1, st1⟩, run1, rest⟩ := bind_eq_some_iff.mp run
    obtain ⟨⟨r2, st2⟩, run2, rest⟩ := bind_eq_some_iff.mp rest
    obtain ⟨⟨val, messages⟩, value, same⟩ := bind_eq_some_iff.mp rest
    cases same
    obtain ⟨⟨r1', st1'⟩, run1', rest⟩ := bind_eq_some_iff.mp run'
    obtain ⟨⟨r2', st2'⟩, run2', rest⟩ := bind_eq_some_iff.mp rest
    obtain ⟨⟨val', messages'⟩, value', same⟩ := bind_eq_some_iff.mp rest
    cases same
    exact moves_binary (ih1 run1 run1' placed.1 placed'.1) (ih2 run2 run2' placed.2 placed'.2)
      value value'
  | unary op e ih =>
    obtain ⟨⟨r1, st1⟩, run1, rest⟩ := bind_eq_some_iff.mp run
    obtain ⟨val, value, same⟩ := bind_eq_some_iff.mp rest
    cases same
    obtain ⟨⟨r1', st1'⟩, run1', rest⟩ := bind_eq_some_iff.mp run'
    obtain ⟨val', value', same⟩ := bind_eq_some_iff.mp rest
    cases same
    have operand := ih run1 run1' placed placed'
    change (Kind.combine .abs (kindOf env e) .other).Moves _ _ _ val val'
    cases kind : kindOf env e with
    | abs =>
      rw [kind] at operand
      have same : r1'.val = r1.val := operand
      rw [same, value] at value'
      exact (Option.some.inj value').symm
    | und | var | rel s dot => trivial
  | DOT =>
    obtain ⟨dotval, address, same⟩ := bind_eq_some_iff.mp run
    cases same
    obtain ⟨dotval', address', same⟩ := bind_eq_some_iff.mp run'
    cases same
    rw [show env.addr.convert _ = _ from placed] at address
    rw [show env.addr.convert _ = _ from placed'] at address'
    change dotval' = dotval + (base' env.dotSect - base env.dotSect)
    rw [← Option.some.inj address, ← Option.some.inj address']
    omega

/-- The type of an accepted expression tells how its value moves with the bases of the sections:
a number stays, also one that `combine` marks as varying unless a number was compared with
something relative, and a value of a section moves with the base of that section. -/
theorem expr_moves {env : Setting} {base base' : Sect → Int} {e : Expr}
    {st st' last last' : State} {r r' : ExprT} (run : expr env base e st = some (r, last))
    (run' : expr env base' e st' = some (r', last')) (placed : Placed env base e)
    (placed' : Placed env base' e) :
    r'.typ = r.typ ∧ (r.typ = S_ABS → r'.val = r.val) ∧
      (r.typ &&& S_TYP = S_ABS → Alike env e → r'.val = r.val) ∧
      ∀ s, r.typ &&& S_TYP = sectType s → r'.val = r.val + (base' s - base s) := by
  have moves := expr_kind_moves run run' placed placed'
  have typ := expr_typ run
  rw [expr_typ run', typ, typeOf_eq]
  refine ⟨rfl, fun fixed => ?_, fun absolute alike => ?_, fun s relative => ?_⟩
  · rw [Kind.typ_eq_abs.mp fixed] at moves
    exact moves
  · rcases Kind.mask_eq_abs.mp absolute with kind | kind
    · rw [kind] at moves
      exact moves
    · rw [kind] at moves
      exact moves alike
  · obtain ⟨dot, kind⟩ := Kind.mask_eq_sect.mp relative
    rw [kind] at moves
    exact moves

def fourth : Expr := .id_fb (.label 0 4)

def passTwo (addr : AddrT) : Setting := ⟨false, .PASS_2, addr, 0, 0⟩

def near : Expr := .binary .less (.binary .minus fourth .DOT) (.NUMBER8 6)

theorem expr_moves_near : ∃ r r' st st',
    expr (passTwo .long) (fun _ => 0) near ⟨0, []⟩ = some (r, st) ∧
      expr (passTwo .long) (fun _ => 100) near ⟨0, []⟩ = some (r', st') ∧
      r.typ = S_ABS ||| S_VAR ∧ r'.val = r.val := by
  have run : expr (passTwo .long) (fun _ => 0) near ⟨0, []⟩ =
      some (⟨1, S_ABS ||| S_VAR⟩, ⟨0, []⟩) := by decide
  have run' : expr (passTwo .long) (fun _ => 100) near ⟨0, []⟩ =
      some (⟨1, S_ABS ||| S_VAR⟩, ⟨0, []⟩) := by decide
  refine ⟨_, _, _, _, run, run', rfl, ?_⟩
  refine (expr_moves run run' ?_ ?_).2.2.1 (by decide) ?_
  · exact ⟨⟨rfl, rfl⟩, trivial⟩
  · exact ⟨⟨rfl, rfl⟩, trivial⟩
  · exact ⟨⟨trivial, trivial, nofun⟩, trivial, fun _ _ => by decide⟩

/-- `fourth > 5` is accepted as absolute and changes with the base; and in an address space of
64K a label need not move as its section does. -/
theorem expr_types_unsound :
    ¬ (∀ (env : Setting) (base : Sect → Int) (s : Sect) (d : Int) (e : Expr) (r r' : ExprT)
      (last last' : State), expr env base e ⟨0, []⟩ = some (r, last) →
      expr env (Function.update base s (base s + d)) e ⟨0, []⟩ = some (r', last') →
      last.errors = [] → last'.errors = [] → r.typ &&& S_TYP = S_ABS → r'.val = r.val) ∧
    ¬ (∀ (env : Setting) (base : Sect → Int) (s : Sect) (d : Int) (e : Expr) (r r' : ExprT)
      (last last' : State), expr env base e ⟨0, []⟩ = some (r, last) →
      expr env (Function.update base s (base s + d)) e ⟨0, []⟩ = some (r', last') →
      last.errors = [] → last'.errors = [] → r.typ &&& S_TYP = sectType s →
      r'.val = r.val + d) := by
  constructor
  · intro sound
    have same := sound (passTwo .long) (fun _ => 0) 0 100 (.binary .greater fourth (.NUMBER8 5))
      ⟨0, S_ABS ||| S_VAR⟩ ⟨1, S_ABS ||| S_VAR⟩ ⟨0, []⟩ ⟨0, []⟩
      (by decide) (by decide) rfl rfl (by decide)
    exact absurd same (by decide)
  · intro sound
    have moved := sound (passTwo .unsignedShort) (fun _ => 0) 0 65534 fourth
      ⟨4, sectType 0⟩ ⟨2, sectType 0⟩ ⟨0, []⟩ ⟨0, []⟩ (by decide) (by decide) rfl rfl (by decide)
    exact absurd moved (by decide)

end AckFormal.As.ExprTypes
