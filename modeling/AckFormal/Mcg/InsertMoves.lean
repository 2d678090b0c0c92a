import AckFormal.Data.Arrays
import AckFormal.Mcg.RegisterAllocator

/-!
# The moves between two register assignments

`insert_moves` puts moves and swaps in front of a hop, to bring the virtual
registers from one assignment to another.  Its work list pairs each source
register with the destination it is still to be copied to.
-/

namespace AckFormal.Mcg.InsertMoves

open AckFormal.Data RegisterAllocator

inductive Move where
  | move (vreg : Option Vreg) (src dest : Hreg)
  | swap (src dest : Hreg)
  deriving DecidableEq

/-- The list `copies`: sources on the left, destinations on the right. -/
abbrev Copies := List (Hreg × Hreg)

/-- The first loop; `none` stands for the failed assertion that a source is
known. -/
def fillCopies (srcregs : Assignment) : Assignment → Copies → Option Copies
  | [], copies => some copies
  | (dest, vreg) :: destregs, copies =>
    match Pmap.findright srcregs vreg with
    | none => none
    | some src => fillCopies srcregs destregs (Pmap.add copies src dest)

def freeDest (aliases : Hreg → List Hreg) (copies : Copies) (dest : Hreg) : Bool :=
  (aliases dest).all fun other => (Pmap.findleft copies other).isNone

def patch (src dest : Hreg) (copies : Copies) : Copies :=
  copies.map fun node => if node.2 = src then (node.1, dest) else node

/-- One turn of the second loop: the copies that are left, and the hop, unless
the first copy was in place. -/
def turn (aliases : Hreg → List Hreg) (srcregs : Assignment) (first : Hreg × Hreg)
    (copies : Copies) : Copies × Option Move :=
  match copies.find? fun node => freeDest aliases copies node.2 with
  | some (src, dest) =>
    (Pmap.remove copies src dest, some (.move (Pmap.findleft srcregs src) src dest))
  | none =>
    let src := first.1
    let dest := (Pmap.findleft copies src).getD first.2
    if src = dest then (Pmap.remove copies src dest, none)
    else (patch src dest (Pmap.remove copies src dest), some (.swap src dest))

/-- An element of `bb->hops`: an earlier hop, or one made here. -/
inductive BlockHop (ι : Type) where
  | hop (id : ι)
  | made (move : Move)
  deriving DecidableEq

/-- The second loop; `none` stands for a loop that takes more than `fuel`
turns. -/
def insertLoop {ι : Type} (aliases : Hreg → List Hreg) (srcregs : Assignment) (index : Nat) :
    Nat → Copies → List (BlockHop ι) → Nat → Option (List (BlockHop ι) × Nat)
  | _, [], hops, inserted => some (hops, inserted)
  | 0, _ :: _, _, _ => none
  | fuel + 1, first :: rest, hops, inserted =>
    match turn aliases srcregs first (first :: rest) with
    | (copies, some move) =>
      insertLoop aliases srcregs index fuel copies
        (Arrays.insert hops (.made move) (index + inserted)) (inserted + 1)
    | (copies, none) => insertLoop aliases srcregs index fuel copies hops inserted

/-- `insert_moves`: the hops of the block with the moves among them, and the
number of moves. -/
def insertMoves {ι : Type} (aliases : Hreg → List Hreg) (fuel : Nat) (hops : List (BlockHop ι))
    (index : Nat) (srcregs destregs : Assignment) : Option (List (BlockHop ι) × Nat) :=
  match fillCopies srcregs destregs [] with
  | none => none
  | some copies => insertLoop aliases srcregs index fuel copies hops 0

def Move.exec {α : Type} (regs : Hreg → α) : Move → Hreg → α
  | .move _ src dest => Function.update regs dest (regs src)
  | .swap src dest => Function.update (Function.update regs src (regs dest)) dest (regs src)

def execAll {α : Type} (moves : List Move) (regs : Hreg → α) : Hreg → α :=
  moves.foldl Move.exec regs

/-! ## The loop by turns -/

/-- The moves the loop makes, apart from where they are put. -/
def emitted (aliases : Hreg → List Hreg) (srcregs : Assignment) :
    Nat → Copies → Option (List Move)
  | _, [] => some []
  | 0, _ :: _ => none
  | fuel + 1, first :: rest =>
    let next := turn aliases srcregs first (first :: rest)
    (emitted aliases srcregs fuel next.1).map (next.2.toList ++ ·)

theorem insertAfter {α : Type} (before moves : List α) (value : α) (after : List α) :
    Arrays.insert (before ++ moves ++ after) value (before.length + moves.length) =
      before ++ (moves ++ [value]) ++ after := by
  unfold Arrays.insert
  rw [← List.length_append, List.take_left, List.drop_left]
  simp

/-- The loop puts the moves in order in front of the hop. -/
theorem insertLoop_emitted {ι : Type} {aliases : Hreg → List Hreg} {srcregs : Assignment}
    {fuel : Nat} {copies : Copies} {moves : List Move}
    (ran : emitted aliases srcregs fuel copies = some moves) (before after : List (BlockHop ι))
    (made : List Move) :
    insertLoop aliases srcregs before.length fuel copies (before ++ made.map .made ++ after)
        made.length =
      some (before ++ (made ++ moves).map .made ++ after, (made ++ moves).length) := by
  induction fuel generalizing copies made moves with
  | zero =>
    cases copies with
    | nil =>
      cases ran
      simp [insertLoop]
    | cons first rest => cases ran
  | succ fuel ih =>
    cases copies with
    | nil =>
      cases ran
      simp [insertLoop]
    | cons first rest =>
      rw [emitted, Option.map_eq_some_iff] at ran
      obtain ⟨later, run, whole⟩ := ran
      rw [← whole, insertLoop]
      cases made' : turn aliases srcregs first (first :: rest) with
      | mk copies move =>
        rw [made'] at run whole
        cases move with
        | none => exact ih run made
        | some move =>
          have inserted := insertAfter before (made.map .made) (.made move) after
          rw [List.length_map] at inserted
          have again := ih run (made ++ [move])
          change insertLoop aliases srcregs before.length fuel copies
            (Arrays.insert (before ++ made.map .made ++ after) (.made move)
              (before.length + made.length)) (made.length + 1) = _
          rw [inserted]
          simpa [List.append_assoc] using again

end AckFormal.Mcg.InsertMoves
