import AckFormal.Ego.Pack
import Mathlib.Data.List.Nodup
import Mathlib.Data.List.Perm.Basic

/-!
# The packed columns

What holds of the two lists of `pack` in every round of its loop.
-/

namespace AckFormal.Ego.Pack

open Interv

structure Ready (list : List Alloc) : Prop where
  ids : (list.map Alloc.id).Nodup
  rivals : ∀ a ∈ list, ∀ b ∈ list, a.item ≠ b.item → Clash a b → a.id ∈ b.rivals
  spans : ∀ a ∈ list, Chronological a.timespan ∧ ∃ t, Times a.timespan t
  wholeproc : ∀ a ∈ list, ∀ e, a.wholeproc = some e →
    ∃ w ∈ list, w.id = e ∧ w.item = a.item ∧ w.wholeproc = none ∧
      ∀ x ∈ list, x.item = w.item → ∀ t, Times x.timespan t → Times w.timespan t

variable {a b : Alloc}

theorem origin_fields (same : a.origin = b.origin) :
    a.id = b.id ∧ a.item = b.item ∧ a.regtype = b.regtype ∧ a.timespan = b.timespan ∧
      a.wholeproc = b.wholeproc := by
  simp only [Alloc.origin, Alloc.mk.injEq] at same
  exact ⟨same.1, same.2.1, same.2.2.1, same.2.2.2.1, same.2.2.2.2.2.2.2.2⟩

/-- The graph keeps the list, allocation by allocation. -/
theorem mem_graph_iff (allocs : List Alloc) (origin : Alloc) :
    (∃ a ∈ buildRivalsGraph allocs, a.origin = origin) ↔ ∃ a ∈ allocs, a.origin = origin := by
  have fields := congrArg (List.map Prod.fst) (buildRivalsGraph_fields allocs)
  rw [List.map_map, List.map_map] at fields
  have same : (buildRivalsGraph allocs).map Alloc.origin = allocs.map Alloc.origin := fields
  rw [← List.mem_map, ← List.mem_map, same]

/-- Behind `build_rivals_graph` all rivals know each other. -/
theorem buildRivalsGraph_ready {allocs : List Alloc} (sound : Sound allocs) :
    Ready (buildRivalsGraph allocs) := by
  have graphed := buildRivalsGraph_graphed sound
  have back : ∀ a ∈ buildRivalsGraph allocs, ∃ b ∈ allocs, b.origin = a.origin := fun a member =>
    (mem_graph_iff allocs a.origin).mp ⟨a, member, rfl⟩
  have forth : ∀ b ∈ allocs, ∃ a ∈ buildRivalsGraph allocs, a.origin = b.origin := fun b member =>
    (mem_graph_iff allocs b.origin).mpr ⟨b, member, rfl⟩
  refine ⟨?_, ?_, ?_, ?_⟩
  · have fields := congrArg (List.map fun p : Alloc × Int => p.1.id) (buildRivalsGraph_fields allocs)
    rw [List.map_map, List.map_map] at fields
    have same : (buildRivalsGraph allocs).map Alloc.id = allocs.map Alloc.id := fields
    rw [same]
    exact sound.ids
  · intro a first b second differs clash
    have both : (buildRivalsGraph allocs).Pairwise fun x y =>
        x.item ≠ y.item → Clash x y → x.id ∈ y.rivals ∧ y.id ∈ x.rivals :=
      graphed.rivals.imp fun rivals differs clash => (rivals differs clash).symm
    have symmetric : ∀ x y : Alloc,
        (x.item ≠ y.item → Clash x y → x.id ∈ y.rivals ∧ y.id ∈ x.rivals) →
          y.item ≠ x.item → Clash y x → y.id ∈ x.rivals ∧ x.id ∈ y.rivals :=
      fun x y rivals differs clash => (rivals differs.symm clash.symm).symm
    have : Std.Symm fun x y : Alloc =>
        x.item ≠ y.item → Clash x y → x.id ∈ y.rivals ∧ y.id ∈ x.rivals := ⟨symmetric⟩
    exact (both.forall first second (fun same => differs (congrArg Alloc.item same)) differs clash).1
  · intro a member
    obtain ⟨b, inside, same⟩ := back a member
    rw [← (origin_fields same).2.2.2.1]
    exact sound.timespans b inside
  · intro a member e whole
    obtain ⟨b, inside, same⟩ := back a member
    obtain ⟨-, item, -, -, wholeproc⟩ := origin_fields same
    obtain ⟨w, known, id, item', none, spans⟩ := sound.wholeproc b inside e (wholeproc.trans whole)
    obtain ⟨w', known', same'⟩ := forth w known
    obtain ⟨idW, itemW, -, spanW, wholeW⟩ := origin_fields same'
    refine ⟨w', known', idW.trans id, itemW.trans (item'.trans item), wholeW.trans none, ?_⟩
    intro x other like t time
    obtain ⟨y, place, sameX⟩ := back x other
    obtain ⟨-, itemX, -, spanX, -⟩ := origin_fields sameX
    rw [spanW]
    refine spans y place (itemX.trans (like.trans itemW)) t ?_
    rw [spanX]
    exact time

/-! ## Fitting -/

theorem fitsGo_spec {column : Column} {contItem : Bool} (fits : (fitsGo a column contItem).1 = true) :
    ∀ y ∈ column, a.id ∉ y.rivals := by
  induction column generalizing contItem with
  | nil => simp
  | cons b mates ih =>
    unfold fitsGo at fits
    split at fits
    · cases fits
    next away =>
        rintro y (_ | ⟨_, member⟩)
        · exact away
        · exact ih fits y member

theorem fitsIn_spec {mates : Column} (fits : (fitsIn a (b :: mates)).1 = true) :
    a.regtype = b.regtype ∧ ∀ y ∈ b :: mates, a.id ∉ y.rivals := by
  have unfolded : fitsIn a (b :: mates) =
      if a.regtype = b.regtype then fitsGo a (b :: mates) false else (false, false) := rfl
  rw [unfolded] at fits
  split at fits
  next same => exact ⟨same, fitsGo_spec fits⟩
  next => cases fits

theorem findFittingAlloc_spec {alloc : Alloc} {i k : Nat} {packed : List Column} {cand : Option Nat}
    (found : findFittingAlloc alloc i packed cand = some k) :
    cand = some k ∨ ∃ j, k = i + j ∧ ∃ c, packed[j]? = some c ∧ (fitsIn alloc c).1 = true := by
  induction packed generalizing i cand with
  | nil => exact Or.inl found
  | cons x rest ih =>
    have later : ∀ {cand'}, findFittingAlloc alloc (i + 1) rest cand' = some k →
        cand' = some k ∨ ∃ j, k = i + j ∧ ∃ c, (x :: rest)[j]? = some c ∧
          (fitsIn alloc c).1 = true := by
      intro cand' found
      rcases ih found with same | ⟨j, place, c, here, fits⟩
      · exact Or.inl same
      · exact Or.inr ⟨j + 1, by omega, c, here, fits⟩
    unfold findFittingAlloc at found
    split at found
    next fits =>
        split at found
        · exact Or.inr ⟨0, (Option.some_inj.mp found).symm, x, rfl, fits⟩
        · rcases later found with same | other
          · exact Or.inr ⟨0, (Option.some_inj.mp same).symm, x, rfl, fits⟩
          · exact Or.inr other
    next => exact later found

/-- `bestAlloc` picks a candidate that there is room for. -/
theorem bestAlloc_spec {machine : Machine} {s : State} {x : Alloc}
    (best : bestAlloc machine s = some x) : x ∈ s.unpacked ∧ roomFor machine s x = true := by
  have along : ∀ (list : List Alloc) (start : Option Alloc),
      list.foldl (fun best x =>
        if (best.elim 0 Alloc.profits) < x.profits && roomFor machine s x then some x else best)
          start = some x →
        start = some x ∨ (x ∈ list ∧ roomFor machine s x = true) := by
    intro list
    induction list with
    | nil => exact fun start found => Or.inl found
    | cons y list ih =>
      intro start found
      rw [List.foldl_cons] at found
      rcases ih _ found with same | ⟨member, room⟩
      · split at same
        next chosen =>
            obtain rfl := Option.some_inj.mp same
            exact Or.inr ⟨List.mem_cons_self, (Bool.and_eq_true_iff.mp chosen).2⟩
        next => exact Or.inl same
      · exact Or.inr ⟨List.mem_cons_of_mem y member, room⟩
  exact (along s.unpacked none best).resolve_left (by simp)

/-! ## The lists -/

def Alloc.core (a : Alloc) : Alloc := { a with regnr := 0, profits := 0 }

theorem core_fields (same : a.core = b.core) :
    a.id = b.id ∧ a.item = b.item ∧ a.regtype = b.regtype ∧ a.timespan = b.timespan ∧
      a.rivals = b.rivals ∧ a.busy = b.busy ∧ a.wholeproc = b.wholeproc := by
  simp only [Alloc.core, Alloc.mk.injEq] at same
  obtain ⟨id, item, regtype, timespan, -, rivals, busy, -, wholeproc⟩ := same
  exact ⟨id, item, regtype, timespan, rivals, busy, wholeproc⟩

def Together (a b : Alloc) : Prop := ∃ t, Times a.timespan t ∧ Times b.timespan t

theorem Together.symm (together : Together a b) : Together b a := by
  obtain ⟨t, first, second⟩ := together
  exact ⟨t, second, first⟩

/-- The columns are the registers in use: in each of them the allocations do not clash, and no item is
in two registers at a time. -/
structure Columns (list unpacked : List Alloc) (packed : List Column) (occupied : RegType → Nat) :
    Prop where
  loose : ∀ u ∈ unpacked, u ∈ list
  placed : ∀ c ∈ packed, ∀ x ∈ c, ∃ y ∈ list, x.core = y.core
  ids : ((unpacked ++ packed.flatten).map Alloc.id).Nodup
  filled : ∀ c ∈ packed, c ≠ []
  alike : ∀ c ∈ packed, ∀ x ∈ c, ∀ y ∈ c, x.regtype = y.regtype ∧ x.regnr = y.regnr
  numbered : packed.Pairwise fun c d => ∀ x ∈ c, ∀ y ∈ d, x.regtype = y.regtype → x.regnr ≠ y.regnr
  below : ∀ x ∈ packed.flatten, x.regnr < occupied x.regtype
  free : ∀ c ∈ packed, ∀ x ∈ c, ∀ y ∈ c, x.item ≠ y.item → ¬ Clash x y
  single : ∀ x ∈ packed.flatten, ∀ y ∈ packed.flatten, x.id ≠ y.id → x.item = y.item →
    ¬ Together x y

namespace Columns

variable {list unpacked : List Alloc} {packed : List Column} {occupied : RegType → Nat}

theorem drop (columns : Columns list unpacked packed occupied) {fewer : List Alloc}
    (sub : fewer.Subperm unpacked) : Columns list fewer packed occupied where
  loose := fun u member => by
    obtain ⟨same, perm, sublist⟩ := sub
    exact columns.loose u (sublist.subset (perm.symm.subset member))
  placed := columns.placed
  ids := by
    obtain ⟨same, perm, sublist⟩ := sub
    have kept := columns.ids.sublist ((sublist.append (List.Sublist.refl packed.flatten)).map Alloc.id)
    exact ((perm.append_right packed.flatten).map Alloc.id).nodup_iff.mp kept
  filled := columns.filled
  alike := columns.alike
  numbered := columns.numbered
  below := columns.below
  free := columns.free
  single := columns.single

variable {x : Alloc}

/-- The allocations of one item in a list of columns with a new one. -/
theorem single_cons {rest all : List Alloc} (same : all.Perm (x :: rest))
    (single : ∀ a ∈ rest, ∀ b ∈ rest, a.id ≠ b.id → a.item = b.item → ¬ Together a b)
    (apart : ∀ a ∈ rest, a.item = x.item → ¬ Together a x) :
    ∀ a ∈ all, ∀ b ∈ all, a.id ≠ b.id → a.item = b.item → ¬ Together a b := by
  intro a first b second differs like
  rcases List.mem_cons.mp (same.subset first) with rfl | first
  · rcases List.mem_cons.mp (same.subset second) with rfl | second
    · exact absurd rfl differs
    · exact fun together => apart b second like.symm together.symm
  · rcases List.mem_cons.mp (same.subset second) with rfl | second
    · exact apart a first like
    · exact single a first b second differs like

/-- A register of its own for an allocation that joins no column. -/
theorem fresh (columns : Columns list (x :: unpacked) packed occupied)
    (apart : ∀ a ∈ packed.flatten, a.item = x.item → ¬ Together a x) :
    Columns list unpacked ([{ x with regnr := occupied x.regtype }] :: packed)
      (Function.update occupied x.regtype (occupied x.regtype + 1)) := by
  have grown : ∀ t, occupied t ≤ Function.update occupied x.regtype (occupied x.regtype + 1) t := by
    intro t
    by_cases same : t = x.regtype
    · rw [same, Function.update_self]
      omega
    · rw [Function.update_of_ne same]
  refine ⟨fun u member => columns.loose u (List.mem_cons_of_mem x member), ?_, ?_, ?_, ?_, ?_, ?_, ?_,
    ?_⟩
  · rintro c (_ | ⟨_, member⟩)
    · intro y inside
      rw [List.mem_singleton.mp inside]
      exact ⟨x, columns.loose x List.mem_cons_self, rfl⟩
    · exact columns.placed c member
  · have ids := columns.ids
    have same : ((x :: unpacked ++ packed.flatten).map Alloc.id).Perm
        ((unpacked ++ ([{ x with regnr := occupied x.regtype }] :: packed).flatten).map Alloc.id) := by
      simp only [List.map_append]
      exact List.perm_middle.symm
    exact same.nodup_iff.mp ids
  · rintro c (_ | ⟨_, member⟩)
    · exact List.cons_ne_nil _ _
    · exact columns.filled c member
  · rintro c (_ | ⟨_, member⟩)
    · intro y first z second
      rw [List.mem_singleton.mp first, List.mem_singleton.mp second]
      exact ⟨rfl, rfl⟩
    · exact columns.alike c member
  · refine List.pairwise_cons.mpr ⟨fun d member y inside z other like => ?_, columns.numbered⟩
    have less := columns.below z (List.mem_flatten.mpr ⟨d, member, other⟩)
    rw [List.mem_singleton.mp inside] at like ⊢
    dsimp only at like ⊢
    rw [like]
    omega
  · intro y inside
    rcases List.mem_cons.mp inside with rfl | inside
    · dsimp only
      rw [Function.update_self]
      omega
    · exact Nat.lt_of_lt_of_le (columns.below y inside) (grown y.regtype)
  · rintro c (_ | ⟨_, member⟩)
    · intro y first z second differs
      rw [List.mem_singleton.mp first, List.mem_singleton.mp second] at differs
      exact absurd rfl differs
    · exact columns.free c member
  · refine single_cons (x := { x with regnr := occupied x.regtype }) ?_ columns.single apart
    rw [List.flatten_cons, List.singleton_append]

/-- A column may keep some of its allocations beside a new one that is no rival of theirs. -/
theorem change {b w : Alloc} {front rest : List Column} {mates kept column : Column}
    {loose : List Alloc} (ready : Ready list)
    (columns : Columns list loose (front ++ (b :: mates) :: rest) occupied)
    (known : w ∈ list) (core : x.core = w.core)
    (register : x.regtype = b.regtype ∧ x.regnr = b.regnr)
    (same : column.Perm (x :: kept)) (sub : ∀ y ∈ kept, y ∈ b :: mates)
    (fits : ∀ y ∈ b :: mates, x.id ∉ y.rivals)
    (apart : ∀ a ∈ (front ++ kept :: rest).flatten, a.item = x.item → ¬ Together a x)
    (still : ∀ u ∈ unpacked, u ∈ list)
    (ids : ((unpacked ++ (front ++ column :: rest).flatten).map Alloc.id).Nodup) :
    Columns list unpacked (front ++ column :: rest) occupied := by
  have here : b :: mates ∈ front ++ (b :: mates) :: rest :=
    List.mem_append_right front List.mem_cons_self
  have others : ∀ c ∈ front ++ column :: rest, c = column ∨ c ∈ front ++ (b :: mates) :: rest := by
    intro c member
    grind
  have members : ∀ y ∈ column, y = x ∨ y ∈ kept := fun y inside =>
    List.mem_cons.mp (same.subset inside)
  have perm : (front ++ column :: rest).flatten.Perm (x :: (front ++ kept :: rest).flatten) := by
    simp only [List.flatten_append, List.flatten_cons]
    exact ((same.append_right rest.flatten).append_left front.flatten).trans List.perm_middle
  have shrunk : ∀ y ∈ (front ++ kept :: rest).flatten, y ∈ (front ++ (b :: mates) :: rest).flatten := by
    intro y inside
    grind
  have alike : ∀ y ∈ column, y.regtype = b.regtype ∧ y.regnr = b.regnr := by
    intro y inside
    rcases members y inside with rfl | old
    · exact register
    · exact columns.alike _ here y (sub y old) b List.mem_cons_self
  -- a new mate does not clash
  have clashes : ∀ y ∈ kept, x.item ≠ y.item → ¬ Clash x y := by
    intro y inside differs clash
    obtain ⟨z, known', same⟩ := columns.placed _ here y (sub y inside)
    obtain ⟨-, itemY, -, -, rivals, busyY, -⟩ := core_fields same
    obtain ⟨id, itemX, -, -, -, busyX, -⟩ := core_fields core
    refine fits y (sub y inside) ?_
    rw [rivals, id]
    refine ready.rivals w known z known' (itemX ▸ itemY ▸ differs) ?_
    unfold Clash at clash ⊢
    rwa [busyX, busyY] at clash
  refine ⟨still, ?_, ids, ?_, ?_, ?_, ?_, ?_, ?_⟩
  · intro c member y inside
    rcases others c member with rfl | old
    · rcases members y inside with rfl | old
      · exact ⟨w, known, core⟩
      · exact columns.placed _ here y (sub y old)
    · exact columns.placed c old y inside
  · intro c member
    rcases others c member with rfl | old
    · exact List.ne_nil_of_mem (same.symm.subset List.mem_cons_self)
    · exact columns.filled c old
  · intro c member y first z second
    rcases others c member with rfl | old
    · obtain ⟨typeY, numberY⟩ := alike y first
      obtain ⟨typeZ, numberZ⟩ := alike z second
      exact ⟨typeY.trans typeZ.symm, numberY.trans numberZ.symm⟩
    · exact columns.alike c old y first z second
  · have old := List.pairwise_append.mp columns.numbered
    have behind := List.pairwise_cons.mp old.2.1
    refine List.pairwise_append.mpr ⟨old.1, List.pairwise_cons.mpr ⟨?_, behind.2⟩, ?_⟩
    · intro d member y inside z other like
      obtain ⟨typeY, numberY⟩ := alike y inside
      rw [numberY]
      exact behind.1 d member b List.mem_cons_self z other (typeY.symm.trans like)
    · intro c early d member y inside z other like
      rcases List.mem_cons.mp member with rfl | late
      · obtain ⟨typeZ, numberZ⟩ := alike z other
        rw [numberZ]
        exact old.2.2 c early _ List.mem_cons_self y inside b List.mem_cons_self (like.trans typeZ)
      · exact old.2.2 c early d (List.mem_cons_of_mem _ late) y inside z other like
  · intro y inside
    rcases List.mem_cons.mp (perm.subset inside) with rfl | old
    · rw [register.1, register.2]
      exact columns.below b (List.mem_flatten.mpr ⟨_, here, List.mem_cons_self⟩)
    · exact columns.below y (shrunk y old)
  · intro c member y first z second differs
    rcases others c member with rfl | old
    · rcases members y first with rfl | first
      · rcases members z second with rfl | second
        · exact absurd rfl differs
        · exact clashes z second differs
      · rcases members z second with rfl | second
        · exact fun clash => clashes y first differs.symm clash.symm
        · exact columns.free _ here y (sub y first) z (sub z second) differs
    · exact columns.free c old y first z second differs
  · refine single_cons perm (fun y first z second => ?_) apart
    exact columns.single y (shrunk y first) z (shrunk z second)

/-- The register of an allocation whose mates are no rivals. -/
theorem join {b : Alloc} {front rest : List Column} {mates : Column} (ready : Ready list)
    (columns : Columns list (x :: unpacked) (front ++ (b :: mates) :: rest) occupied)
    (regtype : x.regtype = b.regtype) (fits : ∀ y ∈ b :: mates, x.id ∉ y.rivals)
    (apart : ∀ a ∈ (front ++ (b :: mates) :: rest).flatten, a.item = x.item → ¬ Together a x) :
    Columns list unpacked (front ++ (b :: { x with regnr := b.regnr } :: mates) :: rest) occupied := by
  refine columns.change (x := { x with regnr := b.regnr }) ready (columns.loose x List.mem_cons_self)
    rfl ⟨regtype, rfl⟩ (List.Perm.swap _ b _) (fun y inside => inside) fits apart
    (fun u member => columns.loose u (List.mem_cons_of_mem x member)) ?_
  have same : ((x :: unpacked ++ (front ++ (b :: mates) :: rest).flatten).map Alloc.id).Perm
      ((unpacked ++ (front ++ (b :: { x with regnr := b.regnr } :: mates) :: rest).flatten).map
        Alloc.id) := by
    simp only [List.map_append, List.flatten_append, List.flatten_cons, List.map_cons]
    grind
  exact same.nodup_iff.mp columns.ids

end Columns

/-!
## The loop of `pack`

Every round grants a register to the best candidate; the loop ends, since a granted allocation overlaps
itself.
-/

/-- An allocation is given up for one of the same item whose timespan overlaps. -/
def Discarded (granted : List Alloc) (y : Alloc) : Prop :=
  ∃ x ∈ granted, x.id ≠ y.id ∧ x.item = y.item ∧ Overlap x.timespan y.timespan

structure Running (machine : Machine) (list : List Alloc) (s : State) : Prop
    extends Columns list s.unpacked s.packed s.occupied where
  limit : ∀ t, s.occupied t ≤ machine.available t
  apart : ∀ u ∈ s.unpacked, ∀ x ∈ s.packed.flatten, u.item = x.item → ¬ Together u x
  covered : ∀ y ∈ list, y ∈ s.unpacked ∨ (∃ x ∈ s.packed.flatten, x.id = y.id) ∨
    Discarded s.packed.flatten y

variable {list : List Alloc} {s : State}

theorem Running.start (machine : Machine) (ready : Ready list) :
    Running machine list ⟨list, [], fun _ => 0⟩ := by
  refine ⟨⟨fun u member => member, ?_, ?_, ?_, ?_, List.Pairwise.nil, ?_, ?_, ?_⟩, ?_, ?_,
    fun y member => Or.inl member⟩
  · simp
  · simpa using ready.ids
  · simp
  · simp
  · simp
  · simp
  · simp
  · exact fun t => Nat.zero_le _
  · simp

section

variable {machine : Machine} (ready : Ready list) (running : Running machine list s) {x : Alloc}
include ready running

/-- Granting a register keeps the columns apart. -/
theorem grant_columns
    (member : x ∈ s.unpacked) (room : roomFor machine s x = true) {packed : List Column}
    {occupied : RegType → Nat} (made : (grant s x).packed = packed)
    (counted : (grant s x).occupied = occupied) :
    ∃ x' : Alloc, x'.core = x.core ∧ packed.flatten.Perm (x' :: s.packed.flatten) ∧
      Columns list (s.unpacked.erase x) packed occupied ∧
        ∀ t, occupied t ≤ machine.available t := by
  have known : x ∈ list := running.loose x member
  obtain ⟨sorted, t, time⟩ := ready.spans x known
  have itself : notDisjoint x.timespan x.timespan = true :=
    notDisjoint_of_times sorted sorted time time
  have found : (s.unpacked.any fun y =>
      (y.item = x.item && notDisjoint y.timespan x.timespan) && y.id = x.id) = true := by
    refine List.any_eq_true.mpr ⟨x, member, ?_⟩
    simp [itself]
  have columns : Columns list (x :: s.unpacked.erase x) s.packed s.occupied :=
    running.toColumns.drop ⟨s.unpacked, List.perm_cons_erase member, List.Sublist.refl _⟩
  have apart : ∀ a ∈ s.packed.flatten, a.item = x.item → ¬ Together a x :=
    fun a inside like together => running.apart x member a inside like.symm together.symm
  unfold grant at made counted
  dsimp only at made counted
  rw [if_pos found] at made
  cases fit : findFittingAlloc x 0 s.packed none with
  | none =>
    rw [fit] at made counted
    dsimp only [addPacked] at made counted
    subst made
    subst counted
    refine ⟨{ x with regnr := s.occupied x.regtype }, rfl, ?_, columns.fresh apart, fun t => ?_⟩
    · rw [List.flatten_cons, List.singleton_append]
    · by_cases same : t = x.regtype
      · have free : s.occupied x.regtype < machine.available x.regtype := by
          unfold roomFor at room
          rw [fit] at room
          simpa using room
        rw [same, Function.update_self]
        omega
      · rw [Function.update_of_ne same]
        exact running.limit t
  | some i =>
    rw [fit] at made counted
    dsimp only [addPacked] at made counted
    subst counted
    obtain ⟨j, place, c, here, fits⟩ := (findFittingAlloc_spec fit).resolve_left (by simp)
    obtain rfl : i = j := by omega
    have inside := List.mem_of_getElem? here
    obtain ⟨b, mates, rfl⟩ := List.exists_cons_of_ne_nil (running.filled c inside)
    obtain ⟨regtype, strangers⟩ := fitsIn_spec fits
    obtain ⟨bound, value⟩ := List.getElem?_eq_some_iff.mp here
    obtain ⟨front, a, rest, whole, length, modified⟩ := List.exists_of_modify
      (fun column => column.take 1 ++
        { x with regnr := (s.packed[i]?.bind List.head?).elim 0 Alloc.regnr } :: column.drop 1) bound
    have same : a = b :: mates := by
      have at_ : (front ++ a :: rest)[i]? = some a := by
        rw [← length, List.getElem?_append_right (Nat.le_refl _), Nat.sub_self]
        rfl
      rw [← whole, here] at at_
      exact (Option.some_inj.mp at_).symm
    have number : (s.packed[i]?.bind List.head?).elim 0 Alloc.regnr = b.regnr := by
      rw [here]
      rfl
    rw [modified, number, same] at made
    subst made
    rw [whole, same] at columns apart ⊢
    refine ⟨{ x with regnr := b.regnr }, rfl, ?_, columns.join ready regtype strangers apart,
      running.limit⟩
    simp only [List.flatten_append]
    exact ((List.Perm.swap _ b _).append_left front.flatten).trans List.perm_middle

/-- A round keeps the invariant, and takes the candidate from the unpacked allocations. -/
theorem Running.grant (best : bestAlloc machine s = some x) :
    Running machine list (grant s x) ∧ (grant s x).unpacked.length < s.unpacked.length := by
  obtain ⟨member, room⟩ := bestAlloc_spec best
  obtain ⟨x', core, perm, columns, limit⟩ := grant_columns ready running member room rfl rfl
  have known : x ∈ list := running.loose x member
  obtain ⟨sorted, t, time⟩ := ready.spans x known
  obtain ⟨id, item, -, span, -⟩ := core_fields core
  have left : ∀ y, y ∈ (Pack.grant s x).unpacked ↔ y ∈ s.unpacked ∧
      ¬ (y.item = x.item ∧ notDisjoint y.timespan x.timespan = true) := by
    intro y
    unfold Pack.grant
    simp only [List.mem_filter, Bool.not_eq_true', Bool.and_eq_false_iff, decide_eq_false_iff_not,
      not_and_or, Bool.not_eq_true]
  have gone : x ∉ (Pack.grant s x).unpacked := fun inside =>
    ((left x).mp inside).2 ⟨rfl, notDisjoint_of_times sorted sorted time time⟩
  have fewer : (Pack.grant s x).unpacked.Subperm (s.unpacked.erase x) := by
    have nodup : s.unpacked.Nodup := by
      have ids := running.ids
      rw [List.map_append] at ids
      exact (List.nodup_append.mp ids).1.of_map
    have sub : (Pack.grant s x).unpacked.Sublist s.unpacked := List.filter_sublist
    refine List.subperm_of_subset (nodup.sublist sub) fun y inside => ?_
    refine (List.mem_erase_of_ne fun same : y = x => gone (same ▸ inside)).mpr (sub.subset inside)
  refine ⟨⟨columns.drop fewer, limit, ?_, ?_⟩, ?_⟩
  · intro u inside a packed like together
    obtain ⟨old, kept⟩ := (left u).mp inside
    rcases List.mem_cons.mp (perm.subset packed) with rfl | packed
    · refine kept ⟨like.trans item, ?_⟩
      obtain ⟨time, first, second⟩ := together
      rw [span] at second
      exact notDisjoint_of_times (ready.spans u (running.loose u old)).1 sorted first second
    · exact running.apart u old a packed like together
  · intro y inside
    have more : ∀ a ∈ s.packed.flatten, a ∈ (Pack.grant s x).packed.flatten := fun a packed =>
      perm.symm.subset (List.mem_cons_of_mem x' packed)
    have new : x' ∈ (Pack.grant s x).packed.flatten := perm.symm.subset List.mem_cons_self
    rcases running.covered y inside with loose | ⟨a, packed, same⟩ | ⟨a, packed, facts⟩
    · by_cases removed : y.item = x.item ∧ notDisjoint y.timespan x.timespan = true
      · by_cases same : x'.id = y.id
        · exact Or.inr (Or.inl ⟨x', new, same⟩)
        · refine Or.inr (Or.inr ⟨x', new, same, item.trans removed.1.symm, ?_⟩)
          rw [span]
          exact (overlap_of_notDisjoint removed.2).symm
      · exact Or.inl ((left y).mpr ⟨loose, removed⟩)
    · exact Or.inr (Or.inl ⟨a, more a packed, same⟩)
    · exact Or.inr (Or.inr ⟨a, more a packed, facts⟩)
  · have short := fewer.length_le
    rw [List.length_erase_of_mem member] at short
    have some := List.length_pos_of_mem member
    omega

end

theorem packLoop_ends (machine : Machine) (ready : Ready list) (n : Nat)
    (running : Running machine list s) (size : s.unpacked.length ≤ n) :
    ∃ s', packLoop machine (n + 1) s = some s' ∧ Running machine list s' := by
  induction n generalizing s with
  | zero =>
    cases best : bestAlloc machine s with
    | none => exact ⟨s, by simp only [packLoop, best], running⟩
    | some x =>
      have member := List.length_pos_of_mem (bestAlloc_spec best).1
      omega
  | succ n ih =>
    cases best : bestAlloc machine s with
    | none => exact ⟨s, by simp only [packLoop, best], running⟩
    | some x =>
      obtain ⟨next, less⟩ := running.grant ready best
      obtain ⟨s', done, facts⟩ := ih next (by omega)
      exact ⟨s', by rw [packLoop, best]; exact done, facts⟩

end AckFormal.Ego.Pack
