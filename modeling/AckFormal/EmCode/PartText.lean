import AckFormal.EmCode.Insert
import AckFormal.Lib.Expansion

/-!
# What the parts are for

The calls define a main text and a text for every part.  The output should be the
expansion of the main text.
-/

namespace AckFormal.EmCode

open Led (Byte)
open Lib

/-! ## The texts -/

/-- The parts that are being defined, the latest first, and the texts.  The main text
has no part. -/
structure Text where
  open_ : List Nat
  body : Option Nat → List (Item Byte Nat)

namespace Text

def start : Text := ⟨[], fun _ => []⟩

def add (t : Text) (item : Item Byte Nat) : Text :=
  { t with body := Function.update t.body t.open_.head? (t.body t.open_.head? ++ [item]) }

def call (t : Text) : Call → Text
  | .put c => t.add (.text c)
  | .insertpart n => t.add (.insert n)
  | .beginpart n => { t with open_ := n :: t.open_ }
  | .endpart _ => { t with open_ := t.open_.tail }

def part (t : Text) (n : Nat) : List (Item Byte Nat) := t.body (some n)

end Text

def text (calls : List Call) : Text :=
  calls.foldl Text.call Text.start

def begun (calls : List Call) : List Nat :=
  calls.filterMap fun
    | .beginpart n => some n
    | _ => none

def inserted (calls : List Call) : List Nat :=
  calls.filterMap fun
    | .insertpart n => some n
    | _ => none

def Nested : List Nat → List Call → Prop
  | open_, [] => open_ = []
  | open_, .beginpart n :: rest => Nested (n :: open_) rest
  | [], .endpart _ :: _ => False
  | m :: open_, .endpart n :: rest => n = m ∧ Nested open_ rest
  | open_, .put _ :: rest => Nested open_ rest
  | open_, .insertpart _ :: rest => Nested open_ rest

variable {open_ : List Nat} {rest : List Call} {n : Nat}

theorem nested_endpart (nested : Nested open_ (.endpart n :: rest)) :
    ∃ outer, open_ = n :: outer ∧ Nested outer rest := by
  cases open_ with
  | nil => exact absurd nested id
  | cons m outer =>
    obtain ⟨rfl, nested⟩ := nested
    exact ⟨outer, rfl, nested⟩

/-- Parts are properly nested, and every part is defined once and inserted once. -/
structure WellFormed (calls : List Call) : Prop where
  nested : Nested [] calls
  once : (begun calls).Nodup
  inserted : (inserted calls).Perm (begun calls)
  acyclic : Acyclic (text calls).part

/-! ## The course of the calls -/

/-- How far the calls have come: is the output still in sequence, what is being defined,
what has been begun, the number of bytes that every part has, and the numbers of bytes
that have gone straight to the output and to the store.  Until the output is no longer in
sequence a part that is inserted is moved to where it is inserted. -/
structure Course where
  sequential : Bool
  open_ : List Nat
  begun : List Nat
  size : Nat → Nat
  direct : Nat
  stored : Nat

namespace Course

def start : Course := ⟨true, [], [], fun _ => 0, 0, 0⟩

def add (c : Course) (bytes : Nat) : Course :=
  match c.open_ with
  | n :: _ =>
    { c with
      size := Function.update c.size n (c.size n + bytes), stored := c.stored + bytes }
  | [] =>
    if c.sequential then { c with direct := c.direct + bytes }
    else { c with stored := c.stored + bytes }

def call (c : Course) : Call → Course
  | .put _ => c.add 1
  | .beginpart n => { c with open_ := n :: c.open_, begun := n :: c.begun }
  | .endpart _ => { c with open_ := c.open_.tail }
  | .insertpart n =>
    if c.sequential then
      if n ∈ c.begun then
        let c' := c.add (c.size n)
        { c' with size := Function.update c'.size n 0 }
      else { c with sequential := false }
    else c

end Course

def course (calls : List Call) : Course :=
  calls.foldl Course.call Course.start

/-- The calls that are dealt with: as long as the output is in sequence, a part that is
not there yet is inserted in the main text only, and a part gets no text after it has been
inserted; if the output stops being in sequence, no part has the id 0, and something goes
to the store or nothing has gone straight to the output; and the store is large enough. -/
structure InOrder (calls : List Call) : Prop where
  outside : ∀ before n after, calls = before ++ .insertpart n :: after →
    (course before).sequential = true → n ∉ (course before).begun → (course before).open_ = []
  follows : ∀ before n after, calls = before ++ .insertpart n :: after →
    (course before).sequential = true → n ∈ (course before).begun →
    Expands (text calls).part (((text calls).part n).drop ((text before).part n).length) []
  ids : (course calls).sequential = true ∨ 0 ∉ begun calls
  flushed : (course calls).sequential = true ∨ 0 < (course calls).stored ∨
    (course calls).direct = 0
  room : (course calls).stored ≤ 2 ^ 31

def WritesExpansion (buf : Bufsiz) (calls : List Call) : Prop :=
  ∃ out, Expands (text calls).part ((text calls).body none) out ∧
    ∃ enough, ∀ fuel, enough ≤ fuel → write buf fuel calls = some out

end AckFormal.EmCode
