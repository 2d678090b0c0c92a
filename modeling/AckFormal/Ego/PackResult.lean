import AckFormal.Ego.Packing

/-!
# What `pack` delivers

The allocations for whole procedures and the cost of saving registers change which allocations are
packed; the registers stay free of conflicts.
-/

namespace AckFormal.Ego.Pack

open Interv
open List (flatten_append mem_append mem_append_left mem_append_right mem_cons_self mem_filter
  mem_flatten perm_middle)

variable {machine : Machine} {list unpacked granted : List Alloc} {packed : List Column}
  {occupied : RegType → Nat}

variable {a e m : Alloc} {rest : List Column} {column : Column}

/-- The number of an allocation determines what packing leaves as it is. -/
theorem core_of_id (ready : Ready list) (columns : Columns list unpacked packed occupied)
    (member : a ∈ packed.flatten) (known : e ∈ list) (same : a.id = e.id) : a.core = e.core := by
  obtain ⟨c, column, inside⟩ := mem_flatten.mp member
  obtain ⟨y, known', core⟩ := columns.placed c column a inside
  have id := (core_fields core).1
  have equal : y = e :=
    List.inj_on_of_nodup_map ready.ids known' known (id.symm.trans same)
  rw [core, equal]

structure Assembled (list unpacked granted : List Alloc) (packed : List Column)
    (occupied : RegType → Nat) : Prop extends Columns list unpacked packed occupied where
  whole : ∀ u ∈ unpacked, ∀ x ∈ packed.flatten, ∀ e, x.wholeproc = some e → u.id ≠ e
  covered : ∀ y ∈ list, y ∈ unpacked ∨ (∃ x ∈ packed.flatten, x.id = y.id) ∨
    Discarded (granted ++ packed.flatten) y

theorem Running.assembled (ready : Ready list) {s : State} (running : Running machine list s) :
    Assembled list s.unpacked s.packed.flatten s.packed s.occupied := by
  refine ⟨running.toColumns, ?_, ?_⟩
  · intro u loose x packed e whole same
    obtain ⟨c, column, inside⟩ := mem_flatten.mp packed
    obtain ⟨y, known, core⟩ := running.placed c column x inside
    obtain ⟨-, item, -, span, -, -, wholeproc⟩ := core_fields core
    obtain ⟨w, known', id, item', -, spans⟩ :=
      ready.wholeproc y known e (wholeproc.symm.trans whole)
    have equal : u = w :=
      List.inj_on_of_nodup_map ready.ids (running.loose u loose) known' (same.trans id.symm)
    obtain ⟨t, time⟩ := (ready.spans y known).2
    refine running.apart u loose x packed ((congrArg Alloc.item equal).trans (item'.trans item.symm))
      ⟨t, ?_, by rw [span]; exact time⟩
    rw [equal]
    exact spans y known item'.symm t time
  · intro y known
    rcases running.covered y known with loose | packed | ⟨x, member, facts⟩
    · exact Or.inl loose
    · exact Or.inr (Or.inl packed)
    · exact Or.inr (Or.inr ⟨x, mem_append_left _ member, facts⟩)

/-- An item in a single register is in no other column. -/
theorem inSingleReg_spec {item : Item} {front : List Column}
    (single : inSingleReg item (front ++ column :: rest) = true) (member : m ∈ column)
    (same : m.item = item) : ∀ a ∈ (front ++ rest).flatten, a.item ≠ item := by
  have here : (column.any fun m => m.item = item) = true :=
    List.any_eq_true.mpr ⟨m, member, by simpa using same⟩
  unfold inSingleReg at single
  rw [decide_eq_true_eq, List.filter_append,
    List.filter_cons_of_pos (p := fun column : Column => column.any fun m => m.item = item) here,
    List.length_append, List.length_cons] at single
  have none : ((front ++ rest).filter fun column => column.any fun m => m.item = item).length = 0 := by
    rw [List.filter_append, List.length_append]
    omega
  intro a inside like
  obtain ⟨c, other, within⟩ := mem_flatten.mp inside
  have hit : c ∈ (front ++ rest).filter fun column => column.any fun m => m.item = item :=
    mem_filter.mpr ⟨other, List.any_eq_true.mpr ⟨a, within, by simpa using like⟩⟩
  rw [List.length_eq_zero_iff.mp none] at hit
  cases hit

theorem replacement_spec (found : replacement list packed column m = some e) :
    inSingleReg m.item packed = true ∧ m.wholeproc = some e.id ∧ e ∈ list ∧
      (fitsIn e column).1 = true := by
  unfold replacement at found
  split at found
  next single =>
      obtain ⟨looked, test⟩ := Option.filter_eq_some_iff.mp found
      obtain ⟨i, whole, searched⟩ := Option.bind_eq_some_iff.mp looked
      have id : e.id = i := by simpa using List.find?_some searched
      refine ⟨single, by rw [id]; exact whole, List.mem_of_find?_eq_some searched, ?_⟩
      exact (Bool.and_eq_true_iff.mp test).2
  next => cases found

/-- An allocation for the whole procedure takes the place of those of its item. -/
theorem Assembled.replace {front : List Column} (ready : Ready list)
    (assembled : Assembled list unpacked granted (front ++ column :: rest) occupied)
    (member : m ∈ column) (found : replacement list (front ++ column :: rest) column m = some e)
    (old : ∀ a ∈ column, a ∈ granted) :
    Assembled list unpacked granted (front ++ replAllocs e column :: rest) occupied := by
  obtain ⟨single, whole, known, fits⟩ := replacement_spec found
  have here : column ∈ front ++ column :: rest := mem_append_right front mem_cons_self
  obtain ⟨b, mates, rfl⟩ := List.exists_cons_of_ne_nil (List.ne_nil_of_mem member)
  obtain ⟨regtype, strangers⟩ := fitsIn_spec fits
  -- the allocation has the item of the one it replaces
  obtain ⟨y, knownM, core⟩ := assembled.placed _ here m member
  obtain ⟨-, itemM, -, -, -, -, wholeM⟩ := core_fields core
  obtain ⟨w, knownW, idW, itemW, noneW, spansW⟩ :=
    ready.wholeproc y knownM e.id (wholeM.symm.trans whole)
  obtain rfl : w = e := List.inj_on_of_nodup_map ready.ids knownW known idW
  have item : m.item = w.item := itemM.trans itemW.symm
  have nowhere := inSingleReg_spec single member rfl
  rw [item] at nowhere
  set new : Alloc :=
    { w with
      regnr := ((b :: mates).head?).elim 0 Alloc.regnr
      profits := (b :: mates).foldl
        (fun prof x => if x.item = w.item then short (prof + x.profits) else prof) 0 } with shape
  set others : Column := (b :: mates).filter fun x => x.item ≠ w.item with remaining
  have sub : others.Sublist (b :: mates) := List.filter_sublist
  have differs : ∀ a ∈ others, a.item ≠ w.item := fun a inside => by
    simpa using (mem_filter.mp inside).2
  have within : ∀ a ∈ others, a ∈ b :: mates := fun a inside => sub.subset inside
  have flat : ∀ a, a ∈ (front ++ (new :: others) :: rest).flatten ↔
      a = new ∨ a ∈ others ∨ a ∈ (front ++ rest).flatten := by
    intro a
    grind
  have before : ∀ a, a ∈ (front ++ rest).flatten ∨ a ∈ b :: mates →
      a ∈ (front ++ (b :: mates) :: rest).flatten := by
    intro a
    grind
  have foreign : ∀ a ∈ (front ++ others :: rest).flatten, a.item ≠ w.item := by
    intro a inside
    have place : a ∈ others ∨ a ∈ (front ++ rest).flatten := by grind
    exact place.elim (differs a) (nowhere a)
  have columns : Columns list unpacked (front ++ (new :: others) :: rest) occupied := by
    refine assembled.toColumns.change (x := new) ready known rfl ⟨regtype, rfl⟩ (List.Perm.refl _)
      within strangers (fun a inside like => absurd like (foreign a inside)) assembled.loose ?_
    have shorter : (front ++ others :: rest).flatten.Sublist (front ++ (b :: mates) :: rest).flatten := by
      simp only [flatten_append]
      exact (List.Sublist.refl _).append (sub.append (List.Sublist.refl _))
    have nodup := assembled.ids.sublist (((List.Sublist.refl unpacked).append shorter).map Alloc.id)
    have perm : (unpacked ++ (front ++ (new :: others) :: rest).flatten).Perm
        (new :: (unpacked ++ (front ++ others :: rest).flatten)) := by
      simp only [flatten_append]
      exact (perm_middle.append_left unpacked).trans perm_middle
    refine (perm.map Alloc.id).nodup_iff.mpr (List.nodup_cons.mpr ⟨fun again => ?_, nodup⟩)
    obtain ⟨a, inside, same⟩ := List.mem_map.mp again
    rcases mem_append.mp inside with loose | packed
    · exact assembled.whole a loose m (before m (Or.inr member)) w.id whole same
    · have like := core_of_id ready assembled.toColumns (shorter.subset packed) known same
      exact foreign a packed (core_fields like).2.1
  refine ⟨columns, ?_, ?_⟩
  · intro u loose x inside i wholeX
    rcases (flat x).mp inside with rfl | near | far
    · exact absurd (noneW.symm.trans wholeX) (by simp)
    · exact assembled.whole u loose x (before x (Or.inr (within x near))) i wholeX
    · exact assembled.whole u loose x (before x (Or.inl far)) i wholeX
  · intro z knownZ
    have place : ∀ x ∈ (front ++ (b :: mates) :: rest).flatten,
        x ∈ (front ++ rest).flatten ∨ x ∈ b :: mates := by
      intro x packed
      simp only [flatten_append] at packed ⊢
      grind
    have new_mem : new ∈ (front ++ (new :: others) :: rest).flatten := (flat new).mpr (Or.inl rfl)
    rcases assembled.covered z knownZ with loose | ⟨x, packed, same⟩ | ⟨x, packed, facts⟩
    · exact Or.inl loose
    · rcases place x packed with far | near
      · exact Or.inr (Or.inl ⟨x, (flat x).mpr (Or.inr (Or.inr far)), same⟩)
      · by_cases replaced : x.item = w.item
        · by_cases itself : new.id = z.id
          · exact Or.inr (Or.inl ⟨new, new_mem, itself⟩)
          · have coreX := core_of_id ready assembled.toColumns packed knownZ same
            have itemZ : z.item = w.item := (core_fields coreX).2.1.symm.trans replaced
            obtain ⟨t, time⟩ := (ready.spans z knownZ).2
            refine Or.inr (Or.inr ⟨new, mem_append_right _ new_mem, itself, itemZ.symm, ?_⟩)
            exact overlap_of_times (spansW z knownZ itemZ t time) time
        · have kept : x ∈ others := mem_filter.mpr ⟨near, by simpa using replaced⟩
          exact Or.inr (Or.inl ⟨x, (flat x).mpr (Or.inr (Or.inl kept)), same⟩)
    · refine Or.inr (Or.inr ⟨x, ?_, facts⟩)
      rcases mem_append.mp packed with before' | now
      · exact mem_append_left _ before'
      · rcases place x now with far | near
        · exact mem_append_right _ ((flat x).mpr (Or.inr (Or.inr far)))
        · exact mem_append_left _ (old x near)

theorem assembleAllocs_assembled (ready : Ready list) (done : List Column)
    (assembled : Assembled list unpacked granted (done ++ rest) occupied)
    (old : ∀ c ∈ rest, ∀ a ∈ c, a ∈ granted) :
    Assembled list unpacked granted (assembleAllocs list done rest) occupied := by
  induction rest generalizing done with
  | nil =>
    rw [List.append_nil] at assembled
    exact assembled
  | cons x rest ih =>
    have later : ∀ c ∈ rest, ∀ a ∈ c, a ∈ granted := fun c member =>
      old c (List.mem_cons_of_mem x member)
    unfold assembleAllocs
    cases found : x.findSome? (replacement list (done ++ x :: rest) x) with
    | none =>
      refine ih (done ++ [x]) ?_ later
      rwa [List.append_assoc, List.singleton_append]
    | some e =>
      obtain ⟨m, member, replaces⟩ := List.exists_of_findSome?_eq_some found
      refine ih _ ?_ later
      rw [List.append_assoc, List.singleton_append]
      exact assembled.replace ready member replaces (old x mem_cons_self)

/-- The cost of saving registers only divides the columns. -/
theorem accountLoop_perm (machine : Machine) {fuel : Nat} {columns checked : List Column}
    {regs : RegType → Nat} {totCost : Int} :
    ((accountLoop machine fuel columns checked regs totCost).2 ++
      (accountLoop machine fuel columns checked regs totCost).1).Perm (checked ++ columns) := by
  induction fuel generalizing columns checked regs totCost with
  | zero => exact List.Perm.refl _
  | succ fuel ih =>
    unfold accountLoop
    split
    · exact List.Perm.refl _
    next i x found =>
        obtain ⟨j, -, place⟩ := Option.bind_eq_some_iff.mp found
        obtain ⟨y, here, same⟩ := Option.map_eq_some_iff.mp place
        obtain ⟨rfl, rfl⟩ : j = i ∧ y = x := by simpa using same
        obtain ⟨bound, value⟩ := List.getElem?_eq_some_iff.mp here
        dsimp only
        split
        · refine ih.trans ?_
          have taken := List.getElem_cons_eraseIdx_perm bound
          rw [value] at taken
          exact perm_middle.symm.trans (taken.append_left checked)
        · exact List.Perm.refl _

/-- What `pack` delivers, where some allocations were granted a register on the way. -/
structure Packed (machine : Machine) (allocs granted : List Alloc) (packed notPacked : List Column) :
    Prop where
  conflictFree : ∀ a ∈ packed.flatten, ∀ b ∈ packed.flatten, a.item ≠ b.item →
    a.regtype = b.regtype → a.regnr = b.regnr →
      ¬ ∃ t, (Times a.timespan t ∧ Times b.timespan t) ∧ a.item.Live t ∧ b.item.Live t
  once : ∀ a ∈ packed.flatten, ∀ b ∈ packed.flatten, a.id ≠ b.id → a.item = b.item →
    ¬ ∃ t, Times a.timespan t ∧ Times b.timespan t
  registers : ∀ a ∈ packed.flatten, a.regnr < machine.available a.regtype
  known : ∀ a ∈ packed.flatten ++ notPacked.flatten, ∃ y ∈ allocs, a.origin = y.origin
  ids : ((packed.flatten ++ notPacked.flatten).map Alloc.id).Nodup
  accounted : ∀ y ∈ allocs, (∃ a ∈ packed.flatten ++ notPacked.flatten, a.id = y.id) ∨
    Discarded granted y

theorem graph_busy {allocs : List Alloc} (sound : Sound allocs)
    (member : a ∈ buildRivalsGraph allocs) (t : Int) :
    Times a.busy t ↔ Times a.timespan t ∧ a.item.Live t := by
  obtain ⟨b, given, same, busy⟩ := buildRivalsGraph_busy allocs a member
  obtain ⟨-, item, -, span, -⟩ := origin_fields same
  rw [busy, (busyOf_spec (sound.timespans b given).1 (sound.lives b given)).2 t, span, item]

theorem one_column (columns : Columns list unpacked packed occupied) {b : Alloc}
    (first : a ∈ packed.flatten) (second : b ∈ packed.flatten) (regtype : a.regtype = b.regtype)
    (regnr : a.regnr = b.regnr) : ∃ c ∈ packed, a ∈ c ∧ b ∈ c := by
  obtain ⟨c, columnA, insideA⟩ := mem_flatten.mp first
  obtain ⟨d, columnB, insideB⟩ := mem_flatten.mp second
  by_cases same : c = d
  · exact ⟨c, columnA, insideA, same ▸ insideB⟩
  · have symmetric : Std.Symm fun c d : Column =>
        ∀ x ∈ c, ∀ y ∈ d, x.regtype = y.regtype → x.regnr ≠ y.regnr :=
      ⟨fun c d apart x first y second like => (apart y second x first like.symm).symm⟩
    exact absurd regnr (columns.numbered.forall columnA columnB same a insideA b insideB regtype)

/-- Behind `build_rivals_graph`, `pack` ends, and no two allocations in a register conflict. -/
theorem pack_conflict_free (machine : Machine) {allocs : List Alloc} (sound : Sound allocs) :
    ∃ fuel s packed notPacked,
      packLoop machine fuel ⟨buildRivalsGraph allocs, [], fun _ => 0⟩ = some s ∧
        pack machine fuel (buildRivalsGraph allocs) = some (packed, notPacked) ∧
          Packed machine allocs
            (s.packed.flatten ++ (assembleAllocs (buildRivalsGraph allocs) [] s.packed).flatten)
            packed notPacked := by
  have ready := buildRivalsGraph_ready sound
  obtain ⟨s, done, running⟩ := packLoop_ends machine ready _ (Running.start machine ready)
    (Nat.le_refl _)
  have assembled := assembleAllocs_assembled ready [] (running.assembled ready)
    fun c member a inside => List.mem_flatten.mpr ⟨c, member, inside⟩
  set columns := assembleAllocs (buildRivalsGraph allocs) [] s.packed with shape
  set out := accountLoop machine columns.length columns [] (fun _ => 0) 0 with result
  have perm : (out.2 ++ out.1).Perm columns := accountLoop_perm machine
  have inside : ∀ a ∈ out.2.flatten, a ∈ columns.flatten := by
    intro a member
    obtain ⟨c, column, within⟩ := List.mem_flatten.mp member
    exact List.mem_flatten.mpr ⟨c, perm.subset (List.mem_append_left _ column), within⟩
  have flat : (out.2.flatten ++ (s.unpacked.map (fun x => [x]) ++ out.1).flatten).Perm
      (s.unpacked ++ columns.flatten) := by
    have singles : (s.unpacked.map fun x => [x]).flatten = s.unpacked := by
      induction s.unpacked with
      | nil => rfl
      | cons x rest ih => simpa using ih
    have whole : (out.2.flatten ++ out.1.flatten).Perm columns.flatten := by
      rw [← List.flatten_append]
      exact perm.flatten
    rw [List.flatten_append, singles]
    refine (List.perm_append_comm_assoc _ _ _).trans ?_
    exact whole.append_left s.unpacked
  have origin : ∀ a ∈ s.unpacked ++ columns.flatten,
      ∃ y ∈ buildRivalsGraph allocs, a.origin = y.origin := by
    intro a member
    rcases List.mem_append.mp member with loose | packed
    · exact ⟨a, assembled.loose a loose, rfl⟩
    · obtain ⟨c, column, within⟩ := List.mem_flatten.mp packed
      obtain ⟨y, known, core⟩ := assembled.placed c column a within
      obtain ⟨id, item, regtype, span, -, -, wholeproc⟩ := core_fields core
      refine ⟨y, known, ?_⟩
      simp only [Alloc.origin, id, item, regtype, span, wholeproc]
  refine ⟨_, s, out.2, s.unpacked.map (fun x => [x]) ++ out.1, done, ?_, ?_, ?_, ?_, ?_, ?_, ?_⟩
  · unfold pack
    rw [done]
    rfl
  · rintro a first b second differs regtype regnr ⟨t, ⟨spanA, spanB⟩, liveA, liveB⟩
    obtain ⟨c, column, here, there⟩ :=
      one_column assembled.toColumns (inside a first) (inside b second) regtype regnr
    obtain ⟨x, knownX, coreX⟩ := assembled.placed c column a here
    obtain ⟨y, knownY, coreY⟩ := assembled.placed c column b there
    obtain ⟨-, itemX, -, spanX, -, busyX, -⟩ := core_fields coreX
    obtain ⟨-, itemY, -, spanY, -, busyY, -⟩ := core_fields coreY
    refine assembled.free c column a here b there differs ⟨t, ?_, ?_⟩
    · rw [busyX, graph_busy sound knownX, ← spanX, ← itemX]
      exact ⟨spanA, liveA⟩
    · rw [busyY, graph_busy sound knownY, ← spanY, ← itemY]
      exact ⟨spanB, liveB⟩
  · exact fun a first b second => assembled.single a (inside a first) b (inside b second)
  · exact fun a member => Nat.lt_of_lt_of_le (assembled.below a (inside a member)) (running.limit _)
  · intro a member
    obtain ⟨y, known, same⟩ := origin a (flat.subset member)
    obtain ⟨z, given, same'⟩ := (mem_graph_iff allocs y.origin).mp ⟨y, known, rfl⟩
    exact ⟨z, given, same.trans same'.symm⟩
  · exact (flat.map Alloc.id).nodup_iff.mpr assembled.ids
  · intro y given
    obtain ⟨z, known, same⟩ := (mem_graph_iff allocs y.origin).mpr ⟨y, given, rfl⟩
    obtain ⟨id, item, -, span, -⟩ := origin_fields same
    rcases assembled.covered z known with loose | ⟨x, packed, number⟩ | ⟨x, packed, number, like, overlap⟩
    · exact Or.inl ⟨z, flat.symm.subset (List.mem_append_left _ loose), id⟩
    · exact Or.inl ⟨x, flat.symm.subset (List.mem_append_right _ packed), number.trans id⟩
    · exact Or.inr ⟨x, packed, id ▸ number, like.trans item, span ▸ overlap⟩

/-- A local variable that is live for part of a procedure of ten instructions. -/
def localVariable (number : Nat) (start stop : Int) (profits : Int) : Alloc where
  id := number
  item := ⟨number, true, [⟨start, stop⟩]⟩
  regtype := .any
  timespan := [⟨0, 9⟩]
  profits := profits
  rivals := []
  busy := []
  regnr := 0
  wholeproc := none

def oneRegister : Machine := ⟨fun t => if t = .any then 1 else 0, fun _ => 1, fun _ => 1, 50⟩

/-- Three variables for the whole procedure, and the second one also for a part of it. -/
def threeVariables : List Alloc :=
  [localVariable 1 0 5 9, localVariable 2 3 8 7, localVariable 3 6 9 4,
    { localVariable 2 3 8 3 with id := 4, timespan := [⟨4, 6⟩], wholeproc := some 2 }]

/-- One register for three variables. -/
theorem threeVariables_packed : ∃ fuel s packed notPacked,
    packLoop oneRegister fuel ⟨buildRivalsGraph threeVariables, [], fun _ => 0⟩ = some s ∧
      pack oneRegister fuel (buildRivalsGraph threeVariables) = some (packed, notPacked) ∧
        Packed oneRegister threeVariables
          (s.packed.flatten ++
            (assembleAllocs (buildRivalsGraph threeVariables) [] s.packed).flatten)
          packed notPacked := by
  refine pack_conflict_free oneRegister ⟨by decide, ?_, ?_, ?_⟩
  · simp only [threeVariables, List.forall_mem_cons, List.not_mem_nil, false_implies,
      implies_true, and_true]
    have whole : Chronological [⟨0, 9⟩] ∧ ∃ t, Times [⟨0, 9⟩] t :=
      ⟨.single (by decide), 0, ⟨0, 9⟩, List.mem_cons_self, by decide, by decide⟩
    exact ⟨whole, whole, whole, .single (by decide), 4, ⟨4, 6⟩, List.mem_cons_self, by decide,
      by decide⟩
  · simp only [threeVariables, List.forall_mem_cons, List.not_mem_nil, false_implies,
      implies_true, and_true]
    exact ⟨.single (by decide), .single (by decide), .single (by decide), .single (by decide)⟩
  · intro a member e part
    have second : e = 2 ∧ a.item = (localVariable 2 3 8 7).item := by
      revert part
      revert a
      simp only [threeVariables, List.forall_mem_cons, List.not_mem_nil, false_implies,
        implies_true, and_true]
      exact ⟨nofun, nofun, nofun, fun same => ⟨(Option.some.inj same).symm, rfl⟩⟩
    refine ⟨localVariable 2 3 8 7, by decide, second.1.symm, second.2.symm, rfl, ?_⟩
    simp only [threeVariables, List.forall_mem_cons, List.not_mem_nil, false_implies,
      implies_true, and_true]
    refine ⟨fun _ _ => id, fun _ _ => id, fun _ _ => id, ?_⟩
    rintro - t ⟨i, member, start, stop⟩
    cases List.mem_singleton.mp member
    exact ⟨⟨0, 9⟩, List.mem_cons_self, le_trans (by decide) start, le_trans stop (by decide)⟩

/-- The first and the third one share it. -/
example : (pack oneRegister 9 (buildRivalsGraph threeVariables)).map
    (fun out => (out.1.map (List.map Alloc.id), out.2.map (List.map Alloc.id))) =
      some ([[1, 3]], [[2], [4]]) := by
  decide +kernel

end AckFormal.Ego.Pack
