import Mathlib.Data.BitVec
import Mathlib.Tactic.FinCases
import Mathlib.Tactic.Ring

/-!
# The intermediate token file

The functions `putval` and `getval` of `as/comm5.c` and the two parts of `yylex` around them.
The file is a list of bytes.  A read behind its end and a failed assertion have no result; the
end of the file at the start of a token is the token 0.
-/

namespace AckFormal.As.TokenFile

open Option (bind_eq_bind bind_some)

inductive Named where
  | MODULE | STRING | IDENT | FBSYM | CODE1 | CODE2 | CODE4
  | NUMBER (n : Fin 5)
  | NUMBER8 | NUMBERF
  | OP_OO | OP_AA | OP_EQ | OP_NE | OP_LE | OP_GE | OP_LL | OP_RR
  deriving DecidableEq

def Named.all : List Named :=
  [.MODULE, .STRING, .IDENT, .FBSYM, .CODE1, .CODE2, .CODE4, .NUMBER 0, .NUMBER 1, .NUMBER 2,
    .NUMBER 3, .NUMBER 4, .NUMBER8, .NUMBERF, .OP_OO, .OP_AA, .OP_EQ, .OP_NE, .OP_LE, .OP_GE,
    .OP_LL, .OP_RR]

/-- The numbers of the tokens in `y.tab.h`: above the characters, each a number of its own,
and those of `NUMBER0` to `NUMBER4` in this order. -/
structure TokenNumbers where
  number : Named → Nat
  injective : ∀ s t, number s = number t → s = t
  above : ∀ t, 256 ≤ number t
  short : ∀ t, number t < 2 ^ 16
  order : ∀ n, number (.NUMBER n) = number (.NUMBER 0) + n

def TokenNumbers.named (y : TokenNumbers) (c : Nat) : Option Named :=
  Named.all.find? fun t => y.number t == c

abbrev Bytes (n : Nat) := { bytes : List UInt8 // bytes.length = n }

/-- `yylval` with the string that a token may have; `word` is `sizeof(word_t)`.  A token uses
one member of the union, so the members are kept apart. -/
structure Lval (word : Nat) where
  y_word : Bytes word
  y_valu : BitVec 64
  y_item : Bytes 8
  y_strp : Bytes 8
  string : List UInt8

variable {word : Nat}

/-! ### Writing -/

def putcode (c : Nat) : List UInt8 := [UInt8.ofNat c, UInt8.ofNat (c / 256)]

def byteOf (v : BitVec 64) (n : Nat) : UInt8 :=
  UInt8.ofBitVec ((v.sshiftRight (n * 8)).setWidth 8)

def putbytes (v : BitVec 64) : Nat → List UInt8
  | 0 => []
  | n + 1 => byteOf v n :: putbytes v n

def countBytes : Nat → BitVec 64 → Nat
  | 0, _ => 0
  | left + 1, v => if v = 0 then 0 else countBytes left (v.sshiftRight 8) + 1

def putval (y : TokenNumbers) (c : Nat) (yylval : Lval word) : Option (List UInt8) :=
  if c < 2 ^ 16 then
    match y.named c with
    | some .CODE1 => some (putcode c ++ putbytes yylval.y_valu 1)
    | some .CODE2 => some (putcode c ++ putbytes yylval.y_valu 2)
    | some .CODE4 => some (putcode c ++ putbytes yylval.y_valu 4)
    | some .NUMBER8 =>
      let n := countBytes 8 yylval.y_valu
      if n ≤ 4 then some (putcode (y.number (.NUMBER 0) + n) ++ putbytes yylval.y_valu n)
      else some (putcode c ++ putbytes yylval.y_valu 8)
    | some .IDENT | some .FBSYM => some (putcode c ++ yylval.y_item.1)
    | some .MODULE => some (putcode c ++ yylval.y_strp.1)
    | some .STRING | some .NUMBERF =>
      let v := BitVec.ofNat 64 yylval.string.length
      let n := countBytes 8 v
      if n ≤ 4 then some (putcode c ++ UInt8.ofNat n :: putbytes v n ++ yylval.string)
      else none
    | some .OP_EQ | some .OP_NE | some .OP_LE | some .OP_GE
    | some .OP_LL | some .OP_RR | some .OP_OO | some .OP_AA => some (putcode c)
    -- NUMBER0 to NUMBER4 have no case of their own here
    | some (.NUMBER _) | none => some (putcode c ++ yylval.y_word.1)
  else none

def putToken (y : TokenNumbers) (c : Nat) (yylval : Lval word) : Option (List UInt8) :=
  if c < 256 then some [UInt8.ofNat c, 0] else putval y c yylval

def putTokens (y : TokenNumbers) : List (Nat × Lval word) → Option (List UInt8)
  | [] => some []
  | (c, yylval) :: rest => do
      let token ← putToken y c yylval
      let file ← putTokens y rest
      some (token ++ file)

/-! ### Reading -/

def getbytes (n : Nat) (file : List UInt8) : Option (List UInt8 × List UInt8) :=
  if n ≤ file.length then some (file.take n, file.drop n) else none

/-- From the label `getnum` on: `v <<= 8; v |= getc(tempfile)` for each of `n` bytes. -/
def getnum : Nat → BitVec 64 → List UInt8 → Option (BitVec 64 × List UInt8)
  | 0, v, file => some (v, file)
  | _ + 1, _, [] => none
  | n + 1, v, c :: file => getnum n (v <<< 8 ||| c.toBitVec.setWidth 64) file

/-- How many bytes the number of a token has, and the token that is returned for it. -/
def numberOf : Named → Option (Nat × Named)
  | .CODE1 => some (1, .CODE1)
  | .CODE2 => some (2, .CODE2)
  | .CODE4 => some (4, .CODE4)
  | .NUMBER n => some (n, .NUMBER8)
  | .NUMBER8 => some (8, .NUMBER8)
  | _ => none

/-- `getval(getc(tempfile) + NUMBER0)` for the length of a string. -/
def getlength (y : TokenNumbers) : List UInt8 → Option (BitVec 64 × List UInt8)
  | [] => none
  | n :: file => do
      let t ← y.named (n.toNat + y.number (.NUMBER 0))
      let (count, _) ← numberOf t
      getnum count 0 file

def getmember (n : Nat) (file : List UInt8) : Option (Bytes n × List UInt8) :=
  if long : n ≤ file.length then
    some (⟨file.take n, List.length_take_of_le long⟩, file.drop n)
  else none

/-- `getval`; `maxstring` is the size of `stringbuf`, which holds the string and a nul. -/
def getval (y : TokenNumbers) (maxstring c : Nat) (yylval : Lval word) (file : List UInt8) :
    Option (Nat × Lval word × List UInt8) :=
  match y.named c with
  | some .IDENT | some .FBSYM => do
      let (y_item, file) ← getmember 8 file
      some (c, { yylval with y_item }, file)
  | some .MODULE => do
      let (y_strp, file) ← getmember 8 file
      some (c, { yylval with y_strp }, file)
  | some .STRING | some .NUMBERF => do
      let (y_valu, file) ← getlength y file
      if y_valu.toNat < maxstring then do
        let (string, file) ← getbytes y_valu.toNat file
        some (c, { yylval with y_valu, string }, file)
      else none
  | some .OP_EQ | some .OP_NE | some .OP_LE | some .OP_GE
  | some .OP_LL | some .OP_RR | some .OP_OO | some .OP_AA => some (c, yylval, file)
  | none => do
      let (y_word, file) ← getmember word file
      some (c, { yylval with y_word }, file)
  | some t => do
      let (count, t) ← numberOf t
      let (y_valu, file) ← getnum count 0 file
      some (y.number t, { yylval with y_valu }, file)

def getToken (y : TokenNumbers) (maxstring : Nat) (yylval : Lval word) :
    List UInt8 → Option (Nat × Lval word × List UInt8)
  | [] => some (0, yylval, [])
  | [_] => some (0, yylval, [])
  | c0 :: c1 :: file =>
    let c := c0.toNat + c1.toNat * 256
    if 256 ≤ c then getval y maxstring c yylval file else some (c, yylval, file)

/-! ### The value of a token -/

inductive Value where
  | none
  | valu (v : BitVec 64)
  | item (bytes : List UInt8)
  | strp (bytes : List UInt8)
  | string (text : List UInt8)
  | word (bytes : List UInt8)

def valueOf (y : TokenNumbers) (c : Nat) (yylval : Lval word) : Value :=
  if c < 256 then .none
  else
    match y.named c with
    | some .CODE1 | some .CODE2 | some .CODE4 | some .NUMBER8 | some (.NUMBER _) =>
      .valu yylval.y_valu
    | some .IDENT | some .FBSYM => .item yylval.y_item.1
    | some .MODULE => .strp yylval.y_strp.1
    | some .STRING | some .NUMBERF => .string yylval.string
    | some .OP_EQ | some .OP_NE | some .OP_LE | some .OP_GE
    | some .OP_LL | some .OP_RR | some .OP_OO | some .OP_AA => .none
    | none => .word yylval.y_word.1

/-- As many tokens as asked for, with their values, and the rest of the file. -/
def getTokens (y : TokenNumbers) (maxstring : Nat) :
    Nat → Lval word → List UInt8 → Option (List (Nat × Value) × Lval word × List UInt8)
  | 0, yylval, file => some ([], yylval, file)
  | count + 1, yylval, file => do
      let (c, yylval, file) ← getToken y maxstring yylval file
      let (tokens, yylval', file) ← getTokens y maxstring count yylval file
      some ((c, valueOf y c yylval) :: tokens, yylval', file)

/-! ### Token numbers -/

variable {y : TokenNumbers} {c n maxstring : Nat} {t : Named} {v : BitVec 64} {yylval : Lval word}

theorem TokenNumbers.number_of_named (found : y.named c = some t) : y.number t = c := by
  have same := @List.find?_some _ (fun t => y.number t == c) t Named.all found
  exact eq_of_beq same

theorem Named.mem_all (t : Named) : t ∈ Named.all := by
  cases t with
  | NUMBER n => revert n; decide
  | _ => decide

@[simp]
theorem TokenNumbers.named_number (y : TokenNumbers) (t : Named) :
    y.named (y.number t) = some t := by
  cases found : y.named (y.number t) with
  | none => exact absurd (List.find?_eq_none.mp found t (Named.mem_all t)) (by simp)
  | some s => exact congrArg some (y.injective s t (TokenNumbers.number_of_named found))

/-! ### Numbers -/

theorem byteOf_toNat (v : BitVec 64) (few : n < 8) :
    (byteOf v n).toNat = v.toNat / 2 ^ (8 * n) % 256 := by
  have bits : (v.sshiftRight (n * 8)).setWidth 8 = v.extractLsb' (n * 8) 8 := by
    apply BitVec.eq_of_getLsbD_eq
    intro i low
    have inside : n * 8 + i < 64 := by omega
    simp [BitVec.getLsbD_sshiftRight, low, inside]
    omega
  rw [byteOf, bits]
  simp [Nat.shiftRight_eq_div_pow, Nat.mul_comm]

theorem shift_or_byte {start : BitVec 64} (c : UInt8) (room : start.toNat < 2 ^ 56) :
    (start <<< 8 ||| c.toBitVec.setWidth 64).toNat = start.toNat * 256 + c.toNat := by
  have byte := c.toNat_lt
  have low : (c.toBitVec.setWidth 64).toNat = c.toNat := by
    rw [BitVec.toNat_setWidth]
    exact Nat.mod_eq_of_lt (by simpa using Nat.lt_trans byte (by decide))
  have high : (start <<< 8).toNat = start.toNat <<< 8 := by
    exact Nat.mod_eq_of_lt (by omega)
  rw [BitVec.toNat_or, low, high, ← Nat.shiftLeft_add_eq_or_of_lt byte, Nat.shiftLeft_eq]

/-- Bytes that are read behind a number that leaves room for them. -/
theorem getnum_putbytes (v : BitVec 64) (rest : List UInt8) {n : Nat} (few : n ≤ 8)
    {start : BitVec 64} (room : start.toNat < 2 ^ (64 - 8 * n)) :
    ∃ w, getnum n start (putbytes v n ++ rest) = some (w, rest) ∧
      w.toNat = start.toNat * 2 ^ (8 * n) + v.toNat % 2 ^ (8 * n) := by
  induction n generalizing start with
  | zero => exact ⟨start, rfl, by simp [Nat.mod_one]⟩
  | succ n ih =>
    have less : start.toNat < 2 ^ 56 :=
      room.trans_le (Nat.pow_le_pow_right (by decide) (by omega))
    have next := shift_or_byte (byteOf v n) less
    rw [byteOf_toNat v (show n < 8 by omega)] at next
    have more : start.toNat * 256 + v.toNat / 2 ^ (8 * n) % 256 < 2 ^ (64 - 8 * n) := by
      have scale : 2 ^ (64 - 8 * n) = 2 ^ (64 - 8 * (n + 1)) * 256 := by
        rw [show 64 - 8 * n = 64 - 8 * (n + 1) + 8 by omega, pow_add]
        rfl
      omega
    obtain ⟨w, read, value⟩ :=
      @ih (by omega) (start <<< 8 ||| (byteOf v n).toBitVec.setWidth 64) (next ▸ more)
    refine ⟨w, read, ?_⟩
    rw [value, next, show 8 * (n + 1) = 8 * n + 8 by omega, pow_add, Nat.mod_mul,
      show 2 ^ 8 = 256 from rfl]
    ring

theorem getnum_of_lt (few : n ≤ 8) (small : v.toNat < 2 ^ (8 * n)) (rest : List UInt8) :
    getnum n 0 (putbytes v n ++ rest) = some (v, rest) := by
  obtain ⟨w, read, value⟩ := @getnum_putbytes v rest n few 0 (Nat.two_pow_pos _)
  rw [Nat.mod_eq_of_lt small, show (0 : BitVec 64).toNat = 0 from rfl, Nat.zero_mul,
    Nat.zero_add] at value
  rw [read, BitVec.eq_of_toNat_eq value]

theorem toNat_lt_of_toInt {bits : Nat} (positive : 0 ≤ v.toInt) (small : v.toInt < 2 ^ bits) :
    v.toNat < 2 ^ bits := by
  have value := BitVec.toInt_eq_toNat_cond v
  have natural : v.toInt = v.toNat := by
    split at value
    · exact value
    · omega
  rw [natural] at small
  exact_mod_cast small

/-- When the count stops early the value is not negative and fits in as many bytes. -/
theorem countBytes_fits {left : Nat} (early : countBytes left v < left) :
    0 ≤ v.toInt ∧ v.toInt < 2 ^ (8 * countBytes left v) := by
  induction left generalizing v with
  | zero => exact absurd early (Nat.not_lt_zero _)
  | succ left ih =>
    rw [countBytes] at early ⊢
    split at early
    · next zero =>
        subst zero
        simp
    · next nonzero =>
        rw [if_neg nonzero]
        obtain ⟨low, high⟩ := ih (Nat.lt_of_succ_lt_succ early)
        rw [BitVec.toInt_sshiftRight, Int.shiftRight_eq_div_pow] at low high
        rw [Nat.mul_add, pow_add]
        omega

/-- A value that is not negative and fits in some bytes is counted with no more. -/
theorem countBytes_le_of_lt {left : Nat} (positive : 0 ≤ v.toInt) (small : v.toInt < 2 ^ (8 * n)) :
    countBytes left v ≤ n := by
  induction left generalizing v n with
  | zero => exact Nat.zero_le n
  | succ left ih =>
    rw [countBytes]
    split
    · exact Nat.zero_le n
    · next nonzero =>
        cases n with
        | zero =>
          have zero : v.toInt = 0 := by
            omega
          exact absurd (BitVec.eq_of_toInt_eq zero) nonzero
        | succ n =>
          refine Nat.succ_le_succ (ih ?_ ?_)
          · rw [BitVec.toInt_sshiftRight, Int.shiftRight_eq_div_pow]
            omega
          · rw [BitVec.toInt_sshiftRight, Int.shiftRight_eq_div_pow]
            rw [Nat.mul_add, pow_add] at small
            omega

/-! ### One token -/

/-- What the first pass has when it writes a token: `NUMBER0` to `NUMBER4` are not returned by
the lexical scan, `readcode` makes the value of a `CODE` of as many bytes, and a string fits in
`stringbuf` with its nul. -/
structure Written (y : TokenNumbers) (maxstring c : Nat) (yylval : Lval word) : Prop where
  positive : 0 < c
  short : c < 2 ^ 16
  scanned : ∀ n, c ≠ y.number (.NUMBER n)
  code1 : c = y.number .CODE1 → yylval.y_valu.toNat < 2 ^ 8
  code2 : c = y.number .CODE2 → yylval.y_valu.toNat < 2 ^ 16
  code4 : c = y.number .CODE4 → yylval.y_valu.toNat < 2 ^ 32
  string : c = y.number .STRING ∨ c = y.number .NUMBERF → yylval.string.length < maxstring

theorem getmember_append (bytes : Bytes n) (rest : List UInt8) :
    getmember n (bytes.1 ++ rest) = some (bytes, rest) := by
  obtain ⟨bytes, rfl⟩ := bytes
  simp [getmember]

theorem getbytes_append (bytes rest : List UInt8) :
    getbytes bytes.length (bytes ++ rest) = some (bytes, rest) := by
  simp [getbytes]

theorem getToken_putcode (short : c < 2 ^ 16) (above : 256 ≤ c) (yylval : Lval word)
    (file : List UInt8) :
    getToken y maxstring yylval (putcode c ++ file) = getval y maxstring c yylval file := by
  have code : (UInt8.ofNat c).toNat + (UInt8.ofNat (c / 256)).toNat * 256 = c := by
    rw [UInt8.toNat_ofNat', UInt8.toNat_ofNat']
    omega
  rw [putcode, List.cons_append, List.cons_append, List.nil_append, getToken, code, if_pos above]

theorem getlength_putbytes (y : TokenNumbers) (few : countBytes 8 v ≤ 4) (rest : List UInt8) :
    getlength y (UInt8.ofNat (countBytes 8 v) :: putbytes v (countBytes 8 v) ++ rest) =
      some (v, rest) := by
  obtain ⟨positive, small⟩ := countBytes_fits (show countBytes 8 v < 8 by omega)
  generalize countBytes 8 v = n at few small ⊢
  have count : (UInt8.ofNat n).toNat + y.number (.NUMBER 0) = y.number (.NUMBER ⟨n, by omega⟩) := by
    rw [y.order ⟨n, by omega⟩, UInt8.toNat_ofNat', Nat.mod_eq_of_lt (by omega), Nat.add_comm]
  rw [List.cons_append, getlength, count, y.named_number]
  exact getnum_of_lt (by omega) (toNat_lt_of_toInt positive small) rest

/-- A token that is written comes back, whatever `yylval` holds before it is read. -/
structure Faithful (y : TokenNumbers) (maxstring c : Nat) (yylval : Lval word)
    (bytes : List UInt8) : Prop where
  written : putToken y c yylval = some bytes
  back : ∀ (before : Lval word) file, ∃ after, getToken y maxstring before (bytes ++ file) =
    some (c, after, file) ∧ valueOf y c after = valueOf y c yylval

theorem putToken_char (char : c < 256) : Faithful y maxstring c yylval [UInt8.ofNat c, 0] := by
  refine ⟨if_pos char, fun before file => ⟨before, ?_, ?_⟩⟩
  · have code : (UInt8.ofNat c).toNat + (0 : UInt8).toNat * 256 = c := by
      rw [UInt8.toNat_ofNat', show (0 : UInt8).toNat = 0 from rfl]
      omega
    rw [List.cons_append, List.cons_append, List.nil_append, getToken, code,
      if_neg (Nat.not_le_of_lt char)]
  · rw [valueOf, valueOf, if_pos char, if_pos char]

theorem valueOf_number {s : Named} {count : Nat} (number : numberOf t = some (count, s))
    (yylval : Lval word) : valueOf y (y.number s) yylval = .valu yylval.y_valu := by
  have above := Nat.not_lt_of_le (y.above s)
  rw [valueOf, if_neg above, y.named_number]
  cases t with
  | CODE1 | CODE2 | CODE4 | NUMBER | NUMBER8 =>
    obtain ⟨-, rfl⟩ := Prod.mk.inj (Option.some.inj number)
    rfl
  | _ => exact nomatch number

/-- A number of `count` bytes under the code of `t`, read back as a token `s`. -/
theorem faithful_number {y : TokenNumbers} {maxstring : Nat} {yylval : Lval word} {s t : Named}
    {count : Nat} (few : count ≤ 8) (number : numberOf t = some (count, s))
    (held : yylval.y_valu.toNat < 2 ^ (8 * count))
    (written : putval y (y.number s) yylval =
      some (putcode (y.number t) ++ putbytes yylval.y_valu count)) :
    Faithful y maxstring (y.number s) yylval
      (putcode (y.number t) ++ putbytes yylval.y_valu count) := by
  refine ⟨?_, fun before file => ⟨{ before with y_valu := yylval.y_valu }, ?_, ?_⟩⟩
  · rw [putToken, if_neg (Nat.not_lt_of_le (y.above s)), written]
  · rw [List.append_assoc, getToken_putcode (y.short t) (y.above t), getval, y.named_number]
    have read := getnum_of_lt few held file
    cases t with
    | CODE1 | CODE2 | CODE4 | NUMBER | NUMBER8 =>
      simp only [number, bind_eq_bind, bind_some, read]
    | _ => exact nomatch number
  · rw [valueOf_number number, valueOf_number number]

theorem faithful_getval {tail : List UInt8} (short : c < 2 ^ 16) (above : 256 ≤ c)
    (written : putval y c yylval = some (putcode c ++ tail))
    (back : ∀ (before : Lval word) file, ∃ after, getval y maxstring c before (tail ++ file) =
      some (c, after, file) ∧ valueOf y c after = valueOf y c yylval) :
    Faithful y maxstring c yylval (putcode c ++ tail) := by
  refine ⟨?_, fun before file => ?_⟩
  · rw [putToken, if_neg (Nat.not_lt_of_le above), written]
  · rw [List.append_assoc, getToken_putcode short above]
    exact back before file

theorem faithful_word (short : c < 2 ^ 16) (above : 256 ≤ c) (other : y.named c = none) :
    Faithful y maxstring c yylval (putcode c ++ yylval.y_word.1) := by
  refine faithful_getval short above ?_ fun before file =>
    ⟨{ before with y_word := yylval.y_word }, ?_, ?_⟩
  · rw [putval, if_pos short, other]
  · rw [getval, other]
    simp only [getmember_append, bind_eq_bind, bind_some]
  · unfold valueOf
    rw [other]

/-- The length of a string with the number of its bytes, and the string. -/
def putstring (string : List UInt8) : List UInt8 :=
  let v := BitVec.ofNat 64 string.length
  UInt8.ofNat (countBytes 8 v) :: putbytes v (countBytes 8 v) ++ string

theorem faithful_string (kind : t = .STRING ∨ t = .NUMBERF) (size : maxstring ≤ 2 ^ 31)
    (fits : yylval.string.length < maxstring) :
    Faithful y maxstring (y.number t) yylval
      (putcode (y.number t) ++ putstring yylval.string) := by
  have value : (BitVec.ofNat 64 yylval.string.length).toNat = yylval.string.length := by
    exact Nat.mod_eq_of_lt (by omega)
  have few : countBytes 8 (BitVec.ofNat 64 yylval.string.length) ≤ 4 := by
    have natural : (BitVec.ofNat 64 yylval.string.length).toInt = yylval.string.length := by
      rw [BitVec.toInt_eq_toNat_of_lt (by omega), value]
    exact countBytes_le_of_lt (by omega) (by rw [natural]; omega)
  refine faithful_getval (y.short t) (y.above t) ?_ fun before file =>
    ⟨{ before with
        y_valu := BitVec.ofNat 64 yylval.string.length
        string := yylval.string }, ?_, ?_⟩
  · rw [putval, if_pos (y.short t), y.named_number]
    rcases kind with rfl | rfl
    all_goals
      rw [if_pos few, putstring, List.append_assoc]
  · rw [getval, y.named_number, putstring, List.append_assoc]
    have length := getlength_putbytes y few (yylval.string ++ file)
    have text := getbytes_append yylval.string file
    rcases kind with rfl | rfl
    all_goals
      simp only [length, bind_eq_bind, bind_some, value, if_pos fits, text]
  · unfold valueOf
    rw [y.named_number]
    rcases kind with rfl | rfl <;> rfl

theorem faithful_number8 (yylval : Lval word) :
    ∃ bytes, Faithful y maxstring (y.number .NUMBER8) yylval bytes := by
  by_cases few : countBytes 8 yylval.y_valu ≤ 4
  · obtain ⟨positive, small⟩ := countBytes_fits (show countBytes 8 yylval.y_valu < 8 by omega)
    have held := toNat_lt_of_toInt positive small
    have code := y.order ⟨countBytes 8 yylval.y_valu, by omega⟩
    refine ⟨_, @faithful_number word y maxstring yylval .NUMBER8
      (.NUMBER ⟨countBytes 8 yylval.y_valu, by omega⟩) _ (Nat.le_trans few (by decide)) rfl held ?_⟩
    rw [putval, if_pos (y.short .NUMBER8), y.named_number, code]
    exact if_pos few
  · refine ⟨_, @faithful_number word y maxstring yylval .NUMBER8 .NUMBER8 8 (Nat.le_refl 8) rfl
      yylval.y_valu.isLt ?_⟩
    rw [putval, if_pos (y.short .NUMBER8), y.named_number]
    exact if_neg few

theorem faithful_pointer (kind : t = .IDENT ∨ t = .FBSYM) :
    Faithful y maxstring (y.number t) yylval (putcode (y.number t) ++ yylval.y_item.1) := by
  refine faithful_getval (y.short t) (y.above t) ?_ fun before file =>
    ⟨{ before with y_item := yylval.y_item }, ?_, ?_⟩
  · rw [putval, if_pos (y.short t), y.named_number]
    rcases kind with rfl | rfl <;> rfl
  · rw [getval, y.named_number]
    rcases kind with rfl | rfl
    all_goals simp only [getmember_append, bind_eq_bind, bind_some]
  · unfold valueOf
    rw [y.named_number]
    rcases kind with rfl | rfl <;> rfl

theorem faithful_module :
    Faithful y maxstring (y.number .MODULE) yylval
      (putcode (y.number .MODULE) ++ yylval.y_strp.1) := by
  refine faithful_getval (y.short _) (y.above _) ?_ fun before file =>
    ⟨{ before with y_strp := yylval.y_strp }, ?_, ?_⟩
  · rw [putval, if_pos (y.short _), y.named_number]
  · rw [getval, y.named_number]
    simp only [getmember_append, bind_eq_bind, bind_some]
  · unfold valueOf
    rw [y.named_number]

def operators : List Named :=
  [.OP_OO, .OP_AA, .OP_EQ, .OP_NE, .OP_LE, .OP_GE, .OP_LL, .OP_RR]

theorem faithful_operator (kind : t ∈ operators) :
    Faithful y maxstring (y.number t) yylval (putcode (y.number t) ++ []) := by
  have written : putval y (y.number t) yylval = some (putcode (y.number t)) := by
    rw [putval, if_pos (y.short t), y.named_number]
    fin_cases kind <;> rfl
  have back : ∀ (before : Lval word) file,
      getval y maxstring (y.number t) before file = some (y.number t, before, file) := by
    intro before file
    rw [getval, y.named_number]
    fin_cases kind <;> rfl
  have value : ∀ yylval : Lval word, valueOf y (y.number t) yylval = .none := by
    intro yylval
    rw [valueOf, if_neg (Nat.not_lt_of_le (y.above t)), y.named_number]
    fin_cases kind <;> rfl
  refine faithful_getval (y.short t) (y.above t) ?_ fun before file => ⟨before, ?_, ?_⟩
  · rw [written, List.append_nil]
  · rw [List.nil_append, back]
  · rw [value, value]

/-- A token is read back as it was written. -/
theorem putToken_faithful (size : maxstring ≤ 2 ^ 31) (ready : Written y maxstring c yylval) :
    ∃ bytes, Faithful y maxstring c yylval bytes := by
  by_cases char : c < 256
  · exact ⟨_, putToken_char char⟩
  cases found : y.named c with
  | none => exact ⟨_, faithful_word ready.short (Nat.le_of_not_lt char) found⟩
  | some t =>
    have same := TokenNumbers.number_of_named found
    subst same
    cases t with
    | CODE1 =>
      refine ⟨_, @faithful_number word y maxstring yylval .CODE1 .CODE1 1 (by decide) rfl
        (ready.code1 rfl) ?_⟩
      rw [putval, if_pos ready.short, y.named_number]
    | CODE2 =>
      refine ⟨_, @faithful_number word y maxstring yylval .CODE2 .CODE2 2 (by decide) rfl
        (ready.code2 rfl) ?_⟩
      rw [putval, if_pos ready.short, y.named_number]
    | CODE4 =>
      refine ⟨_, @faithful_number word y maxstring yylval .CODE4 .CODE4 4 (by decide) rfl
        (ready.code4 rfl) ?_⟩
      rw [putval, if_pos ready.short, y.named_number]
    | NUMBER n => exact absurd rfl (ready.scanned n)
    | NUMBER8 => exact faithful_number8 yylval
    | STRING => exact ⟨_, faithful_string (.inl rfl) size (ready.string (.inl rfl))⟩
    | NUMBERF => exact ⟨_, faithful_string (.inr rfl) size (ready.string (.inr rfl))⟩
    | IDENT => exact ⟨_, faithful_pointer (.inl rfl)⟩
    | FBSYM => exact ⟨_, faithful_pointer (.inr rfl)⟩
    | MODULE => exact ⟨_, faithful_module⟩
    | OP_OO | OP_AA | OP_EQ | OP_NE | OP_LE | OP_GE | OP_LL | OP_RR =>
      exact ⟨_, faithful_operator (by decide)⟩

/-! ### The whole file -/

def seen (y : TokenNumbers) (token : Nat × Lval word) : Nat × Value :=
  (token.1, valueOf y token.1 token.2)

/-- The tokens that the first pass has written are read in the same order with the same values,
and behind them is the end of the file. -/
theorem tempfile_faithful (y : TokenNumbers) (maxstring : Nat) (size : maxstring ≤ 2 ^ 31)
    (tokens : List (Nat × Lval word))
    (ready : ∀ token ∈ tokens, Written y maxstring token.1 token.2) :
    ∃ file, putTokens y tokens = some file ∧
      ∀ before : Lval word, ∃ after,
        getTokens y maxstring tokens.length before file =
          some (tokens.map (seen y), after, []) ∧
        getToken y maxstring after [] = some (0, after, []) := by
  have run : ∃ file, putTokens y tokens = some file ∧
      ∀ before : Lval word, ∃ after, getTokens y maxstring tokens.length before file =
        some (tokens.map (seen y), after, []) := by
    induction tokens with
    | nil => exact ⟨[], rfl, fun before => ⟨before, rfl⟩⟩
    | cons token rest ih =>
      obtain ⟨c, yylval⟩ := token
      obtain ⟨file, written, read⟩ := ih fun t member => ready t (List.mem_cons_of_mem _ member)
      obtain ⟨bytes, first⟩ := putToken_faithful size (ready (c, yylval) List.mem_cons_self)
      refine ⟨bytes ++ file, ?_, fun before => ?_⟩
      · simp only [putTokens, first.written, written, Option.bind_eq_bind, Option.bind_some]
      · obtain ⟨between, back, value⟩ := first.back before file
        obtain ⟨after, finished⟩ := read between
        refine ⟨after, ?_⟩
        simp only [List.length_cons, getTokens, back, finished, Option.bind_eq_bind,
          Option.bind_some, value, List.map_cons, seen]
  obtain ⟨file, written, read⟩ := run
  refine ⟨file, written, fun before => ?_⟩
  obtain ⟨after, finished⟩ := read before
  exact ⟨after, finished, rfl⟩

/-- The numbers for the order of the declarations in `comm2.y`, from 258 on. -/
def declaredNumber : Named → Nat
  | .MODULE => 258
  | .STRING => 259
  | .IDENT => 260
  | .FBSYM => 261
  | .CODE1 => 262
  | .CODE2 => 263
  | .CODE4 => 264
  | .NUMBER n => 265 + n
  | .NUMBER8 => 270
  | .NUMBERF => 271
  | .OP_OO => 289
  | .OP_AA => 290
  | .OP_EQ => 291
  | .OP_NE => 292
  | .OP_LE => 293
  | .OP_GE => 294
  | .OP_LL => 295
  | .OP_RR => 296

def declared : TokenNumbers where
  number := declaredNumber
  injective s t same := by
    have facts : ∀ s ∈ Named.all, ∀ t ∈ Named.all, declaredNumber s = declaredNumber t → s = t := by
      decide
    exact facts s (Named.mem_all s) t (Named.mem_all t) same
  above t := by
    have facts : ∀ t ∈ Named.all, 256 ≤ declaredNumber t := by decide
    exact facts t (Named.mem_all t)
  short t := by
    have facts : ∀ t ∈ Named.all, declaredNumber t < 2 ^ 16 := by decide
    exact facts t (Named.mem_all t)
  order _ := rfl

def compared : List (Nat × Lval 2) :=
  let lval (v : BitVec 64) (string : List UInt8) : Lval 2 :=
    ⟨⟨[0, 0], rfl⟩, v, ⟨List.replicate 8 0, rfl⟩, ⟨List.replicate 8 0, rfl⟩, string⟩
  [(0x2d, lval 0 []), (270, lval 1 []), (293, lval 1 []), (259, lval 1 [0x61])]

theorem tempfile_compared :
    (∀ token ∈ compared, Written declared 200 token.1 token.2) ∧
      ∃ file, putTokens declared compared = some file ∧
        ∀ before : Lval 2, ∃ after,
          getTokens declared 200 compared.length before file =
            some (compared.map (seen declared), after, []) ∧
          getToken declared 200 after [] = some (0, after, []) := by
  have ready : ∀ token ∈ compared, Written declared 200 token.1 token.2 := by
    intro token member
    fin_cases member
    all_goals exact ⟨by decide, by decide, by decide, by decide, by decide, by decide, by decide⟩
  exact ⟨ready, tempfile_faithful declared 200 (by decide) compared ready⟩

end AckFormal.As.TokenFile
