import AckFormal.EmCode.InsertCalls

/-!
# Closing the output

`C_close` writes part 0, if there is one, and the parts that are inserted in it.  A part
is emptied when it has been written; as every part is inserted once it is not asked for
again.
-/

namespace AckFormal.EmCode

open Led (Byte)
open Lib
open Option (bind_eq_bind bind_some map_some)

/-! ## Bytes for the output -/

section Output

variable {buf : Bufsiz} {s s' : Code}

theorem put_direct (buf : Bufsiz) (direct : s.ontmpfile = false) (c : Byte) :
    ∃ s', s.put buf c = some s' ∧ s'.file ++ s'.obuf = s.file ++ s.obuf ++ [c] := by
  have flush : s.flush buf = some { s with file := s.file ++ s.obuf, obuf := [] } :=
    if_neg (by simp [direct])
  unfold Code.put
  rw [flush]
  split
  · refine ⟨_, by rw [map_some], ?_⟩
    rw [push_obuf (by exact direct)]
    rfl
  · refine ⟨_, by rw [map_some], ?_⟩
    rw [push_obuf (by exact direct)]
    exact (List.append_assoc _ _ _).symm

theorem put_direct_base (direct : s.ontmpfile = false) {c : Byte} (ran : s.put buf c = some s') :
    s'.base = s.base := by
  have flush : s.flush buf = some { s with file := s.file ++ s.obuf, obuf := [] } :=
    if_neg (by simp [direct])
  unfold Code.put at ran
  rw [flush] at ran
  split at ran
  · rw [map_some, push_obuf (by exact direct)] at ran
    cases ran
    rfl
  · rw [map_some, push_obuf (by exact direct)] at ran
    cases ran
    rfl

structure Written (s s' : Code) (out : List Byte) : Prop where
  output : s'.file ++ s'.obuf = s.file ++ s.obuf ++ out
  base : s'.base = s.base
  direct : s'.ontmpfile = false

theorem Written.trans {s'' : Code} {out out' : List Byte} (first : Written s s' out)
    (second : Written s' s'' out') : Written s s'' (out ++ out') where
  output := by rw [second.output, first.output, List.append_assoc]
  base := second.base.trans first.base
  direct := second.direct

theorem putAll_direct (buf : Bufsiz) (bytes : List Byte) (direct : s.ontmpfile = false) :
    ∃ s', bytes.foldlM (Code.put buf) s = some s' ∧ Written s s' bytes ∧ s'.stable = s.stable := by
  induction bytes generalizing s with
  | nil => exact ⟨s, rfl, ⟨(List.append_nil _).symm, rfl, direct⟩, rfl⟩
  | cons c bytes ih =>
    obtain ⟨s₁, step, output⟩ := put_direct buf direct c
    obtain ⟨stable, _, _, ontmpfile, _⟩ := put_frame step
    have first : Written s s₁ [c] :=
      ⟨output, put_direct_base direct step, ontmpfile.trans direct⟩
    obtain ⟨s', later, written, stable'⟩ := ih first.direct
    refine ⟨s', ?_, first.trans written, stable'.trans stable⟩
    rw [List.foldlM_cons, step]
    exact later

end Output

/-! ## Parts in parts -/

section Forest

variable {B : Nat → List (Item Byte Nat)} {rank : Nat → Nat}

def InsertedIn (B : Nat → List (Item Byte Nat)) (i p : Nat) : Prop := .insert i ∈ B p

def Below (B : Nat → List (Item Byte Nat)) : Nat → Nat → Prop :=
  Relation.ReflTransGen (InsertedIn B)

structure Forest (B : Nat → List (Item Byte Nat)) (rank : Nat → Nat) : Prop where
  lower : ∀ p i, .insert i ∈ B p → rank i < rank p
  unique : ∀ i p q, .insert i ∈ B p → .insert i ∈ B q → p = q
  nodup : ∀ p, (inserts (B p)).Nodup

theorem Forest.rank_le (forest : Forest B rank) {i p : Nat} (below : Below B i p) :
    rank i ≤ rank p := by
  induction below with
  | refl => exact Nat.le_refl _
  | tail _ step ih => exact Nat.le_trans ih (Nat.le_of_lt (forest.lower _ _ step))

theorem Forest.not_below (forest : Forest B rank) {p i k : Nat} (inI : .insert i ∈ B p)
    (inK : .insert k ∈ B p) (other : i ≠ k) : ¬Below B i k := by
  intro below
  rcases Relation.ReflTransGen.cases_head below with same | ⟨q, step, rest⟩
  · exact other same
  · have parent : q = p := forest.unique i q p step inI
    subst parent
    have high := forest.rank_le rest
    have low := forest.lower q k inK
    omega

theorem Forest.apart (forest : Forest B rank) {p i k j : Nat} (inI : .insert i ∈ B p)
    (inK : .insert k ∈ B p) (other : i ≠ k) (belowI : Below B j i) : ¬Below B j k := by
  intro belowK
  have unique : Relator.RightUnique (InsertedIn B) := fun i p q inP inQ => forest.unique i p q inP inQ
  rcases Relation.ReflTransGen.total_of_right_unique unique belowI belowK with below | below
  · exact forest.not_below inI inK other below
  · exact forest.not_below inK inI other.symm below

end Forest

/-! ## Writing parts -/

section Parts

variable {buf : Bufsiz} {base : List Byte} {B : Nat → List (Item Byte Nat)} {rank : Nat → Nat}
  {X : Nat → List Byte}

def Ready (base : List Byte) (B : Nat → List (Item Byte Nat)) (s : Code) (i : Nat) : Prop :=
  ∃ p, s.stable i = some p ∧ (∀ chunk ∈ p.parts, chunk.Closed base) ∧ contents base p.parts = B i

theorem inserts_texts (bytes : List Byte) :
    inserts (bytes.map (Item.text : Byte → Item Byte Nat)) = [] := by
  induction bytes with
  | nil => rfl
  | cons c bytes ih => exact ih

/-- Chunk by chunk, with each inserted part in its place. -/
theorem out_chunks (buf : Bufsiz) (X : Nat → List Byte) (forest : Forest B rank) {fuel p : Nat}
    (inner : ∀ i s, .insert i ∈ B p → s.ontmpfile = false → s.base = base →
      (∀ j, Below B j i → Ready base B s j) →
      ∃ s', Code.outpart buf fuel i s = some s' ∧ Written s s' (X i) ∧
        ∀ j, ¬Below B j i → s'.stable j = s.stable j)
    (chunks : List PartOfPart) {s : Code} (direct : s.ontmpfile = false) (sameBase : s.base = base)
    (closed : ∀ chunk ∈ chunks, chunk.Closed base)
    (inP : ∀ i ∈ inserts (chunks.flatMap (PartOfPart.items base)), .insert i ∈ B p)
    (nodup : (inserts (chunks.flatMap (PartOfPart.items base))).Nodup)
    (ready : ∀ i ∈ inserts (chunks.flatMap (PartOfPart.items base)),
      ∀ j, Below B j i → Ready base B s j) :
    ∃ s', chunks.foldlM (Code.outChunk buf (Code.outpart buf fuel)) s = some s' ∧
      Written s s' (flat X (chunks.flatMap (PartOfPart.items base))) ∧
      ∀ j, (∀ i ∈ inserts (chunks.flatMap (PartOfPart.items base)), ¬Below B j i) →
        s'.stable j = s.stable j := by
  induction chunks generalizing s with
  | nil => exact ⟨s, rfl, ⟨(List.append_nil _).symm, rfl, direct⟩, fun _ _ => rfl⟩
  | cons chunk rest ih =>
    have chunkClosed := closed chunk List.mem_cons_self
    have restClosed := fun c member => closed c (List.mem_cons_of_mem chunk member)
    rw [List.flatMap_cons, inserts_append] at inP nodup ready
    rw [List.flatMap_cons, List.foldlM_cons, flat_append, inserts_append]
    match chunk with
    | .text _ none => exact absurd chunkClosed id
    | .text begin (some stop) =>
      rw [PartOfPart.items, inserts_texts, List.nil_append] at inP nodup ready
      rw [PartOfPart.items, inserts_texts, List.nil_append, flat_texts]
      have copied : Code.outChunk buf (Code.outpart buf fuel) s (.text begin (some stop)) =
          s.copy buf begin stop := rfl
      rw [copied, copy_eq chunkClosed.1 (by rw [sameBase]; exact chunkClosed.2), sameBase]
      obtain ⟨s₁, put, written, stable⟩ := putAll_direct buf
        ((base.drop begin).take (stop - begin)) direct
      obtain ⟨s', later, written', stable'⟩ := ih written.direct
        (written.base.trans sameBase) restClosed inP nodup (by
          intro i member j below
          unfold Ready
          rw [stable]
          exact ready i member j below)
      refine ⟨s', ?_, written.trans written', fun j outside => ?_⟩
      · rw [put]
        exact later
      · rw [stable' j outside, stable]
    | .insert i =>
      have here : PartOfPart.items base (.insert i) = [.insert i] := rfl
      simp only [here] at inP nodup ready ⊢
      obtain ⟨notLater, nodupRest⟩ := List.nodup_cons.mp nodup
      have inI := inP i List.mem_cons_self
      obtain ⟨s₁, out, written, stable⟩ := inner i s inI direct sameBase
        (ready i List.mem_cons_self)
      obtain ⟨s', later, written', stable'⟩ := ih written.direct
        (written.base.trans sameBase) restClosed
        (fun k member => inP k (List.mem_cons_of_mem i member)) nodupRest (by
          intro k member j below
          have inK := inP k (List.mem_cons_of_mem i member)
          have other : k ≠ i := by
            rintro rfl
            exact notLater member
          unfold Ready
          rw [stable j (forest.apart inK inI other below)]
          exact ready k (List.mem_cons_of_mem i member) j below)
      refine ⟨s', ?_, ?_, fun j outside => ?_⟩
      · have step : Code.outChunk buf (Code.outpart buf fuel) s (.insert i) =
            Code.outpart buf fuel i s := rfl
        rw [step, out]
        exact later
      · rw [flat_insert, flat_nil, List.append_nil]
        exact written.trans written'
      · rw [stable' j fun k member => outside k (List.mem_cons_of_mem i member),
          stable j (outside i List.mem_cons_self)]

/-- By induction on the fuel, which bounds the depth of insertions. -/
theorem outpart_expands (buf : Bufsiz) (base : List Byte) (forest : Forest B rank)
    (solves : ∀ i, X i = flat X (B i)) (fuel : Nat) :
    ∀ p s, rank p < fuel → s.ontmpfile = false → s.base = base →
      (∀ j, Below B j p → Ready base B s j) →
      ∃ s', Code.outpart buf fuel p s = some s' ∧ Written s s' (X p) ∧
        ∀ j, ¬Below B j p → s'.stable j = s.stable j := by
  induction fuel with
  | zero =>
    intro p s bound
    exact absurd bound (Nat.not_lt_zero _)
  | succ fuel ih =>
    intro p s bound direct sameBase ready
    obtain ⟨q, entry, closed, holds⟩ := ready p Relation.ReflTransGen.refl
    have contents' : q.parts.reverse.flatMap (PartOfPart.items base) = B p := holds
    obtain ⟨s₁, out, written, stable⟩ := out_chunks buf X forest (p := p) (s := s) (by
        intro i s inP direct sameBase ready
        have low := forest.lower p i inP
        exact ih i s (by omega) direct sameBase ready)
      q.parts.reverse direct sameBase
      (fun chunk member => closed chunk (List.mem_reverse.mp member))
      (fun i member => mem_inserts.mp (by rw [contents'] at member; exact member))
      (by rw [contents']; exact forest.nodup p) (by
        intro i member j below
        rw [contents'] at member
        exact ready j (below.tail (mem_inserts.mp member)))
    rw [contents', ← solves p] at written
    refine ⟨s₁.clear p, ?_, ?_, ?_⟩
    · unfold Code.outpart
      rw [entry]
      simp only [out, map_some]
    · exact ⟨written.output, written.base, written.direct⟩
    · intro j outside
      have other : j ≠ p := by
        rintro rfl
        exact outside Relation.ReflTransGen.refl
      unfold Code.clear
      dsimp only
      rw [Function.update_of_ne other]
      apply stable
      intro i member below
      rw [contents'] at member
      exact outside (below.tail (mem_inserts.mp member))

end Parts

/-! ## Closing -/

section Close

variable {buf : Bufsiz} {s : Code} {h : Held}

theorem flush_direct (direct : s.ontmpfile = false) :
    s.flush buf = some { s with file := s.file ++ s.obuf, obuf := [] } :=
  if_neg (by simp [direct])

theorem Matches.close_direct (here : Matches buf s h) (now : h.sequential = true)
    (levels : h.levels = []) (fuel : Nat) : s.close buf fuel = some h.written := by
  have current : s.currPart = none := by
    rw [here.current, levels]
    rfl
  have direct : s.ontmpfile = false := by
    rw [here.ontmpfile, levels]
    rfl
  have stopped : s.stopCurrent = some s := by
    unfold Code.stopCurrent
    rw [current]
  have written := here.keeps.written
  unfold Code.close
  by_cases unused : s.bufsiz = 0
  · simp only [unused, if_true, bind_eq_bind, bind_some, flush_direct direct, written]
  · simp only [unused, if_false, stopped, here.keeps.sequential, now, if_true, bind_eq_bind,
      bind_some]
    rw [flush_direct (by rfl)]
    simp only [bind_some, written]

/-- If nothing has gone to the store, what is in the buffer is not written. -/
theorem Matches.close_unused (here : Matches buf s h) (levels : h.levels ≠ []) (none : h.stored = 0)
    (fuel : Nat) : ∃ out, s.close buf fuel = some out ∧
      (h.written = [] → out = []) ∧ (h.written ≠ [] → out.length < h.written.length) := by
  have ontmpfile : s.ontmpfile = true := by
    rw [here.ontmpfile]
    cases full : h.levels with
    | nil => exact absurd full levels
    | cons _ _ => rfl
  have unused : s.bufsiz = 0 := by
    apply here.keeps.used
    rw [← List.length_eq_zero_iff, here.keeps.store, none]
  have positive : buf.siz ≠ 0 := Nat.ne_of_gt (Nat.two_pow_pos _)
  refine ⟨s.file, ?_, ?_, ?_⟩
  · unfold Code.close Code.flush
    simp only [unused, if_true, bind_eq_bind, bind_some, ontmpfile, if_neg positive]
  · intro empty
    have written := here.keeps.written
    rw [empty] at written
    exact (List.append_eq_nil_iff.mp written).1
  · intro some_
    have written := here.keeps.written
    have buffered : s.obuf ≠ [] := by
      intro empty
      rw [empty, here.keeps.flushed empty] at written
      exact some_ written.symm
    rw [← written, List.length_append]
    have := List.length_pos_iff.mpr buffered
    omega

/-- Part 0 is written after what has gone to the output before. -/
theorem Matches.close_parts (here : Matches buf s h) (later : h.sequential = false)
    (levels : h.levels = [0]) (used : 0 < h.stored) {rank : Nat → Nat}
    (forest : Forest h.held rank) (listed : ∀ i p, .insert i ∈ h.held p → i ∈ h.table)
    {X : Nat → List Byte} (solves : ∀ i, X i = flat X (h.held i)) {fuel : Nat}
    (enough : rank 0 ≤ fuel) : s.close buf fuel = some (h.written ++ X 0) := by
  have keeps := here.keeps
  have current : s.currPart = some 0 := by
    rw [here.current, levels]
    rfl
  have inTable : 0 ∈ h.table := here.listed 0 (by rw [levels]; exact List.mem_cons_self)
  have some_ : s.bufsiz ≠ 0 := by
    have store := keeps.store
    have fits := keeps.fits
    omega
  rw [levels] at keeps
  obtain ⟨p, entry⟩ := keeps.entry inTable
  obtain ⟨begin, rest, parts, low, closed⟩ := keeps.opened 0 p entry rfl
  have stopped : s.stopCurrent = some { s with
      stable := Function.update s.stable 0
        (some { p with parts := .text begin (some s.base.length) :: rest }) } := by
    unfold Code.stopCurrent
    rw [current]
    simp only [entry, parts, bind_eq_bind, bind_some]
  have keeps' := keeps.rechunk (q := { p with parts := .text begin (some s.base.length) :: rest })
    none inTable (by
      rw [← keeps.holds 0 p entry, parts, contents_cons, contents_cons, PartOfPart.items,
        PartOfPart.items, ← List.length_drop, List.take_length]) (by
      intro m other
      simp [Ne.symm other]) (by
      intro _ chunk member
      rcases List.mem_cons.mp member with rfl | later
      · exact ⟨low, Nat.le_refl _⟩
      · exact closed chunk later) (by simp)
  obtain ⟨s₁, stops⟩ : ∃ s₁, s₁ = { s with
      ontmpfile := false, sequential := false,
      stable := Function.update s.stable 0
        (some { p with parts := .text begin (some s.base.length) :: rest }) } := ⟨_, rfl⟩
  have keeps₁ : Keeps buf s₁ h none := by
    rw [stops]
    exact { keeps' with sequential := later.symm }
  have ready : ∀ j, Below h.held j 0 → Ready s₁.base h.held s₁ j := by
    intro j below
    have member : j ∈ h.table := by
      rcases Relation.ReflTransGen.cases_head below with rfl | ⟨q, step, _⟩
      · exact inTable
      · exact listed j q step
    obtain ⟨q, entry'⟩ := keeps₁.entry member
    exact ⟨q, entry', keeps₁.closed j q entry' (by simp), keeps₁.holds j q entry'⟩
  obtain ⟨s₂, out, written, _⟩ := outpart_expands buf s₁.base forest solves
    (fuel + 1) 0 s₁ (by omega) (by rw [stops]) rfl ready
  have output : s₂.file ++ s₂.obuf = h.written ++ X 0 := by
    rw [written.output, keeps₁.written]
  have sequential : s.sequential = false := by rw [keeps.sequential, later]
  unfold Code.close
  simp only [some_, if_false, stopped, sequential, Bool.false_eq_true, bind_eq_bind,
    bind_some]
  rw [← stops, out, bind_some, flush_direct written.direct, bind_some]
  simp only [output]

end Close

end AckFormal.EmCode
