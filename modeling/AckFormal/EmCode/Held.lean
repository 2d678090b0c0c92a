import AckFormal.EmCode.PartText

/-!
# What is held for each part

The buffers, the chunks and the switches between output and store are left out: a part
holds a text.  `insert.c` moves the text of a part as long as the output is in sequence
and keeps the insertion afterwards.
-/

namespace AckFormal.EmCode

open Led (Byte)
open Lib

/-- The parts in the table, the parts that are being defined, the text of every part, the
text that has gone to the output, and the number of bytes that have gone to the store.
The output that is no longer in sequence is part 0. -/
structure Held where
  sequential : Bool
  table : List Nat
  levels : List Nat
  written : List Byte
  held : Nat → List (Item Byte Nat)
  stored : Nat

namespace Held

def start : Held := ⟨true, [], [], [], fun _ => [], 0⟩

def put (h : Held) (c : Byte) : Option Held :=
  match h.levels with
  | [] => some { h with written := h.written ++ [c] }
  | n :: _ =>
    if h.stored < 2 ^ 31 then
      some { h with
        held := Function.update h.held n (h.held n ++ [.text c]), stored := h.stored + 1 }
    else none

def bytes (h : Held) (n : Nat) : List Byte := flat (fun _ => []) (h.held n)

/-- One call.  There is no state after it if the calls cannot be finished. -/
def call (h : Held) : Call → Option Held
  | .put c => h.put c
  | .beginpart n =>
    if n ∈ h.table then none else some { h with table := n :: h.table, levels := n :: h.levels }
  | .endpart n =>
    match h.levels with
    | m :: rest => if m = n then some { h with levels := rest } else none
    | [] => none
  | .insertpart n =>
    if h.sequential then
      if n ∈ h.table then
        ((h.bytes n).foldlM put h).map fun h =>
          { h with held := Function.update h.held n [] }
      else if h.levels = [] ∧ 0 ∉ h.table then
        some { h with
          sequential := false, table := 0 :: h.table, levels := [0],
          held := Function.update h.held 0 (h.held 0 ++ [.insert n]) }
      else none
    else
      match h.levels with
      | m :: _ =>
        some { h with held := Function.update h.held m (h.held m ++ [.insert n]) }
      | [] => none

variable {h : Held}

theorem put_main (levels : h.levels = []) (c : Byte) :
    h.put c = some { h with written := h.written ++ [c] } := by
  rw [put, levels]

theorem put_part {n : Nat} {rest : List Nat} (levels : h.levels = n :: rest)
    (c : Byte) : h.put c =
      if h.stored < 2 ^ 31 then
        some { h with
          held := Function.update h.held n (h.held n ++ [.text c]), stored := h.stored + 1 }
      else none := by
  rw [put, levels]

theorem putAll_control {bytes : List Byte} {h h' : Held} (ran : bytes.foldlM put h = some h') :
    h'.levels = h.levels ∧ h'.table = h.table ∧ h'.sequential = h.sequential := by
  induction bytes generalizing h with
  | nil =>
    cases ran
    exact ⟨rfl, rfl, rfl⟩
  | cons c bytes ih =>
    obtain ⟨h₁, step, later⟩ := Option.bind_eq_some_iff.mp ran
    obtain ⟨levels, table, sequential⟩ := ih later
    have same : h₁.levels = h.levels ∧ h₁.table = h.table ∧ h₁.sequential = h.sequential := by
      unfold put at step
      split at step
      · cases step
        exact ⟨rfl, rfl, rfl⟩
      · split at step
        · cases step
          exact ⟨rfl, rfl, rfl⟩
        · cases step
    exact ⟨levels.trans same.1, table.trans same.2.1, sequential.trans same.2.2⟩

theorem put_all_main (bytes : List Byte) (levels : h.levels = []) :
    bytes.foldlM put h = some { h with written := h.written ++ bytes } := by
  induction bytes generalizing h with
  | nil =>
    rw [List.append_nil]
    rfl
  | cons c bytes ih =>
    rw [List.foldlM_cons]
    have later := ih (h := { h with written := h.written ++ [c] }) levels
    rw [put_main levels, Option.bind_eq_bind, Option.bind_some, later, List.append_assoc,
      List.singleton_append]

theorem put_all_part (bytes : List Byte) {n : Nat} {rest : List Nat}
    (levels : h.levels = n :: rest) (room : h.stored ≤ 2 ^ 31) :
    bytes.foldlM put h =
      if h.stored + bytes.length ≤ 2 ^ 31 then
        some { h with
          held := Function.update h.held n (h.held n ++ bytes.map .text),
          stored := h.stored + bytes.length }
      else none := by
  induction bytes generalizing h with
  | nil =>
    rw [List.length_nil, Nat.add_zero, if_pos room, List.map_nil, List.append_nil,
      Function.update_eq_self]
    rfl
  | cons c bytes ih =>
    rw [List.foldlM_cons, put_part levels]
    by_cases small : h.stored < 2 ^ 31
    · have later := ih (h := { h with
          held := Function.update h.held n (h.held n ++ [.text c]), stored := h.stored + 1 })
        levels (Nat.succ_le_of_lt small)
      rw [if_pos small, Option.bind_eq_bind, Option.bind_some, later]
      simp only [Function.update_self, Function.update_idem, List.map_cons, List.length_cons,
        List.append_assoc, List.singleton_append, Nat.add_assoc, Nat.add_comm 1]
    · rw [if_neg small, List.length_cons, if_neg (by omega)]
      rfl

end Held

end AckFormal.EmCode
