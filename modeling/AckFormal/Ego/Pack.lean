import AckFormal.Ego.Interv

/-!
# Packing of registers

The allocations of register allocation, which of them are rivals, and how they are packed into
registers. A pointer to an allocation is its number, and the list that `al_mates` links behind an
allocation is a column.
-/

namespace AckFormal.Ego.Pack

open Interv

inductive RegType where
  | any
  | loop
  | pointer
  | float
  deriving DecidableEq

structure Item where
  number : Nat
  localvar : Bool
  lives : List Interval
  deriving DecidableEq

def Item.Live (item : Item) (t : Int) : Prop := item.localvar = true → Times item.lives t

structure Alloc where
  id : Nat
  item : Item
  regtype : RegType
  timespan : List Interval
  profits : Int
  rivals : List Nat
  busy : List Interval
  regnr : Nat
  wholeproc : Option Nat
  deriving DecidableEq

abbrev Column := List Alloc

def short (x : Int) : Int := x.bmod (2 ^ 16)

/-! ## Rivals -/

def busyOf (alloc : Alloc) : List Interval :=
  if alloc.item.localvar then intersect alloc.timespan alloc.item.lives else alloc.timespan

def compete (alloc x : Alloc) : Bool := x.item ≠ alloc.item && notDisjoint alloc.busy x.busy

/-- One round of `build_rivals_graph`: an allocation and those before it. -/
def addRivals (list : List Alloc) (alloc : Alloc) : List Alloc :=
  let alloc := { alloc with busy := busyOf alloc }
  list.map (fun x => if compete alloc x then { x with rivals := alloc.id :: x.rivals } else x) ++
    [{ alloc with rivals := (list.filter (compete alloc)).map Alloc.id }]

def buildRivalsGraph (alloclist : List Alloc) : List Alloc := alloclist.foldl addRivals []

/-! ## Candidates -/

/-- The loop of `fits_in` over an allocation and its mates, with `cont_item`. -/
def fitsGo (a : Alloc) : Column → Bool → Bool × Bool
  | [], contItem => (true, contItem)
  | b :: mates, contItem =>
    if a.id ∈ b.rivals then (false, contItem)
    else fitsGo a mates (contItem || mates.head?.any fun m => a.item = m.item)

def fitsIn (a : Alloc) : Column → Bool × Bool
  | [] => (true, false)
  | b :: mates => if a.regtype = b.regtype then fitsGo a (b :: mates) false else (false, false)

/-- `find_fitting_alloc`: the place of a column, from a place on. -/
def findFittingAlloc (alloc : Alloc) : Nat → List Column → Option Nat → Option Nat
  | _, [], cand => cand
  | i, x :: rest, cand =>
    if (fitsIn alloc x).1 then
      if (fitsIn alloc x).2 then some i else findFittingAlloc alloc (i + 1) rest (some i)
    else findFittingAlloc alloc (i + 1) rest cand

/-- The registers of the target, and what saving a number of them costs. -/
structure Machine where
  available : RegType → Nat
  saveTime : Nat → Int
  saveSpace : Nat → Int
  timeSpaceRatio : Int

structure State where
  unpacked : List Alloc
  packed : List Column
  occupied : RegType → Nat

variable (machine : Machine)

def roomFor (s : State) (alloc : Alloc) : Bool :=
  s.occupied alloc.regtype < machine.available alloc.regtype ||
    (findFittingAlloc alloc 0 s.packed none).isSome

def bestAlloc (s : State) : Option Alloc :=
  s.unpacked.foldl
    (fun best x => if (best.elim 0 Alloc.profits) < x.profits && roomFor machine s x then some x else best)
    none

/-- The packed list with the allocation in a register of its own, or among the mates of the fitting
one. -/
def addPacked (packed : List Column) (alloc : Alloc) : Option Nat → List Column
  | none => [alloc] :: packed
  | some i => packed.modify i fun column => column.take 1 ++ alloc :: column.drop 1

def grant (s : State) (alloc : Alloc) : State :=
  let fit := findFittingAlloc alloc 0 s.packed none
  let regnr := match fit with
    | none => s.occupied alloc.regtype
    | some i => (s.packed[i]?.bind List.head?).elim 0 Alloc.regnr
  let occupied := match fit with
    | none => Function.update s.occupied alloc.regtype (s.occupied alloc.regtype + 1)
    | some _ => s.occupied
  let removed := fun x => x.item = alloc.item && notDisjoint x.timespan alloc.timespan
  { unpacked := s.unpacked.filter fun x => !removed x
    packed :=
      if s.unpacked.any fun x => removed x && x.id = alloc.id then
        addPacked s.packed { alloc with regnr := regnr } fit
      else s.packed
    occupied := occupied }

def packLoop : Nat → State → Option State
  | 0, _ => none
  | fuel + 1, s =>
    match bestAlloc machine s with
    | none => some s
    | some x => packLoop fuel (grant s x)

/-! ## Whole procedures -/

def inSingleReg (item : Item) (packed : List Column) : Bool :=
  (packed.filter fun column => column.any fun m => m.item = item).length ≤ 1

def replAllocs (new : Alloc) (column : Column) : Column :=
  { new with
    regnr := column.head?.elim 0 Alloc.regnr
    profits := column.foldl
      (fun prof x => if x.item = new.item then short (prof + x.profits) else prof) 0 } ::
    column.filter fun x => x.item ≠ new.item

/-- The allocation for the whole procedure that replaces those of a member of the column. -/
def replacement (alloclist : List Alloc) (packed : List Column) (column : Column) (m : Alloc) :
    Option Alloc :=
  if inSingleReg m.item packed then
    (m.wholeproc.bind fun e => alloclist.find? fun x => x.id = e).filter fun e =>
      0 < e.profits && (fitsIn e column).1
  else none

def assembleAllocs (alloclist : List Alloc) : List Column → List Column → List Column
  | done, [] => done
  | done, x :: rest =>
    match x.findSome? (replacement alloclist (done ++ x :: rest) x) with
    | none => assembleAllocs alloclist (done ++ [x]) rest
    | some e => assembleAllocs alloclist (done ++ [replAllocs e x]) rest

/-! ## The cost of saving registers -/

def cumProfits (column : Column) : Int := column.foldl (fun sum m => short (sum + m.profits)) 0

/-- `best_cumprofits`: the place of a column, from a place on. -/
def bestCumprofits : Nat → List Column → Int → Option Nat → Option Nat
  | _, [], _, cand => cand
  | i, x :: rest, best, cand =>
    if best < cumProfits x then bestCumprofits (i + 1) rest (cumProfits x) (some i)
    else bestCumprofits (i + 1) rest best cand

def regsaveCost (regs : RegType → Nat) : Int :=
  let n := regs .any + regs .pointer + regs .float
  short ((machine.timeSpaceRatio * machine.saveTime n +
    (100 - machine.timeSpaceRatio) * machine.saveSpace n).tdiv 100)

/-- The loop of `account_regsave`: the columns that do not pay off, and those that do. -/
def accountLoop : Nat → List Column → List Column → (RegType → Nat) → Int →
    List Column × List Column
  | 0, packed, checked, _, _ => (packed, checked)
  | fuel + 1, packed, checked, regs, totCost =>
    match (bestCumprofits 0 packed 0 none).bind fun i => (packed[i]?.map fun x => (i, x)) with
    | none => (packed, checked)
    | some (i, x) =>
      let regs := x.head?.elim regs fun a =>
        Function.update regs a.regtype (regs a.regtype + 1)
      let diff := short (regsaveCost machine regs - totCost)
      if diff < cumProfits x then
        accountLoop fuel (packed.eraseIdx i) (x :: checked) regs (short (totCost + diff))
      else (packed, checked)

def accountRegsave (packed : List Column) (unpacked : List Alloc) : List Column × List Column :=
  let out := accountLoop machine packed.length packed [] (fun _ => 0) 0
  (out.2, unpacked.map (fun x => [x]) ++ out.1)

def pack (fuel : Nat) (alloclist : List Alloc) : Option (List Column × List Column) :=
  (packLoop machine fuel ⟨alloclist, [], fun _ => 0⟩).map fun s =>
    accountRegsave machine (assembleAllocs alloclist [] s.packed) s.unpacked

/-!
## The rivals graph

Allocations of different items that are live at a common time of both timespans are rivals.
-/

/-- The allocations that are made for the items of a procedure. -/
structure Sound (allocs : List Alloc) : Prop where
  ids : (allocs.map Alloc.id).Nodup
  timespans : ∀ a ∈ allocs, Chronological a.timespan ∧ ∃ t, Times a.timespan t
  lives : ∀ a ∈ allocs, Chronological a.item.lives
  wholeproc : ∀ a ∈ allocs, ∀ e, a.wholeproc = some e →
    ∃ w ∈ allocs, w.id = e ∧ w.item = a.item ∧ w.wholeproc = none ∧
      ∀ x ∈ allocs, x.item = w.item → ∀ t, Times x.timespan t → Times w.timespan t

/-- An allocation apart from what the graph and the packing set. -/
def Alloc.origin (a : Alloc) : Alloc := { a with rivals := [], busy := [], regnr := 0, profits := 0 }

def Clash (a b : Alloc) : Prop := ∃ t, Times a.busy t ∧ Times b.busy t

theorem Clash.symm {a b : Alloc} (clash : Clash a b) : Clash b a := by
  obtain ⟨t, first, second⟩ := clash
  exact ⟨t, second, first⟩

theorem busyOf_spec {a : Alloc} (span : Chronological a.timespan) (lives : Chronological a.item.lives) :
    Chronological (busyOf a) ∧ ∀ t, Times (busyOf a) t ↔ Times a.timespan t ∧ a.item.Live t := by
  unfold busyOf Item.Live
  split
  next localvar =>
      obtain ⟨sorted, times⟩ := intersect_spec span lives
      exact ⟨sorted, fun t => by rw [times, forall_prop_of_true localvar]⟩
  next other => exact ⟨span, fun t => by simp [other]⟩

structure Graphed (list : List Alloc) : Prop where
  busy : ∀ a ∈ list, Chronological a.busy
  rivals : list.Pairwise fun x y => x.item ≠ y.item → Clash x y → y.id ∈ x.rivals ∧ x.id ∈ y.rivals

/-- One more allocation has its rivals among those before it. -/
theorem addRivals_graphed {list : List Alloc} (graphed : Graphed list) {alloc : Alloc}
    (sorted : Chronological (busyOf alloc)) : Graphed (addRivals list alloc) := by
  let new : Alloc := { alloc with busy := busyOf alloc }
  let mark (x : Alloc) : Alloc :=
    if compete new x then { x with rivals := new.id :: x.rivals } else x
  have shape : addRivals list alloc =
      list.map mark ++ [{ new with rivals := (list.filter (compete new)).map Alloc.id }] := rfl
  have kept : ∀ x, (mark x).id = x.id ∧ (mark x).item = x.item ∧ (mark x).busy = x.busy ∧
      ∀ i, i ∈ x.rivals → i ∈ (mark x).rivals := by
    intro x
    by_cases hit : compete new x
    · have marked : mark x = { x with rivals := new.id :: x.rivals } := if_pos hit
      rw [marked]
      exact ⟨rfl, rfl, rfl, fun i member => List.mem_cons_of_mem _ member⟩
    · have same : mark x = x := if_neg hit
      rw [same]
      exact ⟨rfl, rfl, rfl, fun i member => member⟩
  have hits : ∀ x ∈ list, x.item ≠ new.item → Clash x new → compete new x = true := by
    intro x member differs clash
    obtain ⟨t, first, second⟩ := clash
    have found : notDisjoint new.busy x.busy = true :=
      notDisjoint_of_times sorted (graphed.busy x member) second first
    change (decide (x.item ≠ new.item) && notDisjoint new.busy x.busy) = true
    rw [found, Bool.and_true]
    exact decide_eq_true differs
  rw [shape]
  refine ⟨fun a member => ?_, List.pairwise_append.mpr ⟨?_, List.pairwise_singleton _ _, ?_⟩⟩
  · rcases List.mem_append.mp member with old | last
    · obtain ⟨x, inside, rfl⟩ := List.mem_map.mp old
      rw [(kept x).2.2.1]
      exact graphed.busy x inside
    · rw [List.mem_singleton.mp last]
      exact sorted
  · refine List.pairwise_map.mpr (graphed.rivals.imp fun {x y} rivals differs clash => ?_)
    obtain ⟨idX, itemX, busyX, moreX⟩ := kept x
    obtain ⟨idY, itemY, busyY, moreY⟩ := kept y
    unfold Clash at clash
    rw [itemX, itemY] at differs
    rw [busyX, busyY] at clash
    obtain ⟨first, second⟩ := rivals differs clash
    rw [idX, idY]
    exact ⟨moreX _ first, moreY _ second⟩
  · intro a old b last differs clash
    obtain ⟨x, inside, rfl⟩ := List.mem_map.mp old
    obtain rfl := List.mem_singleton.mp last
    obtain ⟨idX, itemX, busyX, -⟩ := kept x
    unfold Clash at clash
    rw [itemX] at differs
    rw [busyX] at clash
    have hit := hits x inside differs clash
    have marked : mark x = { x with rivals := new.id :: x.rivals } := if_pos hit
    refine ⟨?_, ?_⟩
    · rw [marked]
      exact List.mem_cons_self
    · rw [idX]
      exact List.mem_map_of_mem (List.mem_filter.mpr ⟨inside, hit⟩)

theorem addRivals_fields (list : List Alloc) (alloc : Alloc) :
    (addRivals list alloc).map (fun a => (a.origin, a.profits)) =
      (list ++ [alloc]).map fun a => (a.origin, a.profits) := by
  unfold addRivals
  rw [List.map_append, List.map_append, List.map_map]
  congr 1
  refine List.map_congr_left fun x _ => ?_
  dsimp only [Function.comp_apply]
  split <;> rfl

theorem buildRivalsGraph_fields (allocs : List Alloc) :
    (buildRivalsGraph allocs).map (fun a => (a.origin, a.profits)) =
      allocs.map fun a => (a.origin, a.profits) := by
  have along : ∀ (rest list : List Alloc),
      (rest.foldl addRivals list).map (fun a => (a.origin, a.profits)) =
        (list ++ rest).map fun a => (a.origin, a.profits) := by
    intro rest
    induction rest with
    | nil => simp
    | cons alloc rest ih =>
      intro list
      rw [List.foldl_cons, ih, List.map_append, addRivals_fields, ← List.map_append,
        List.append_assoc, List.singleton_append]
  exact along allocs []

theorem buildRivalsGraph_busy (allocs : List Alloc) :
    ∀ a ∈ buildRivalsGraph allocs, ∃ b ∈ allocs, a.origin = b.origin ∧ a.busy = busyOf b := by
  have along : ∀ (rest list : List Alloc),
      (∀ a ∈ list, ∃ b ∈ allocs, a.origin = b.origin ∧ a.busy = busyOf b) →
        (∀ a ∈ rest, a ∈ allocs) →
          ∀ a ∈ rest.foldl addRivals list, ∃ b ∈ allocs, a.origin = b.origin ∧ a.busy = busyOf b := by
    intro rest
    induction rest with
    | nil => exact fun list all _ => all
    | cons alloc rest ih =>
      intro list all inside
      refine ih _ (fun a member => ?_) fun a member => inside a (List.mem_cons_of_mem _ member)
      rcases List.mem_append.mp member with old | last
      · obtain ⟨x, before, rfl⟩ := List.mem_map.mp old
        obtain ⟨b, given, same, busy⟩ := all x before
        refine ⟨b, given, ?_⟩
        split
        · exact ⟨same, busy⟩
        · exact ⟨same, busy⟩
      · obtain rfl := List.mem_singleton.mp last
        exact ⟨alloc, inside alloc List.mem_cons_self, rfl, rfl⟩
  exact along allocs [] (by simp) fun a member => member

theorem buildRivalsGraph_graphed {allocs : List Alloc} (sound : Sound allocs) :
    Graphed (buildRivalsGraph allocs) := by
  have along : ∀ (rest list : List Alloc), Graphed list → (∀ a ∈ rest, a ∈ allocs) →
      Graphed (rest.foldl addRivals list) := by
    intro rest
    induction rest with
    | nil => exact fun list graphed _ => graphed
    | cons alloc rest ih =>
      intro list graphed inside
      have member := inside alloc List.mem_cons_self
      have sorted := (busyOf_spec (sound.timespans alloc member).1 (sound.lives alloc member)).1
      exact ih _ (addRivals_graphed graphed sorted)
        fun a member => inside a (List.mem_cons_of_mem _ member)
  exact along allocs [] ⟨by simp, List.Pairwise.nil⟩ fun a member => member

end AckFormal.Ego.Pack
