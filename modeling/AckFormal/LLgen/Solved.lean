import AckFormal.LLgen.Starts

/-!
# What the loops compute

Each loop of `do_compute` ends, and at its end the sets solve the inclusions that it
works on.  The flags and the FIRST sets are also justified by derivations.
-/

namespace AckFormal.LLgen.Solved

open Lib.Settle Lib.Inclusion LLgen.Compute LLgen.Derivation
open List (append_nil forall_mem_append mem_append mem_cons mem_map not_mem_nil)

variable {g : Grammar} {flags : Flags}

variable {n : Nat}

theorem mem_range : n ∈ g.range ↔ n < g.nonterms.length := List.mem_range

theorem rule_shaped (g : Grammar) (n : Nat) : (g.rule n).shaped = true := by
  unfold Grammar.rule
  cases found : g.nonterms[n]? with
  | none => rfl
  | some p => exact g.shaped p (List.mem_of_getElem? found)

/-! ### Which nonterminals produce empty -/

theorem nempty_justified (declared : n < g.nonterms.length) (justified : FlagsJustified g flags) :
    FlagsJustified g (nempty g n flags).1 := by
  unfold nempty
  split
  next now =>
    intro m set
    by_cases here : m = n
    · rw [here]
      have derives := (empty_justified justified (rule_shaped g n)
        ((Bool.and_eq_true _ _).mp now).2).1
      have opened := Derives.expand (g := g) (.nonterm declared) [] []
      simp only [append_nil] at opened
      exact opened.trans derives
    · exact justified m ((Function.update_of_ne here _ _).symm.trans set)
  next => exact justified

def known (g : Grammar) (flags : Flags) : Nat :=
  ∑ n ∈ Finset.range g.nonterms.length, (flags n).toNat

theorem nempty_progress (declared : n < g.nonterms.length) :
    Progress (fun _ => True) (known g) (nempty g n) := by
  refine Progress.conditional (fun _ _ _ => trivial) fun flags _ now => ?_
  have off : flags n = false := by simpa using ((Bool.and_eq_true _ _).mp now).1
  refine Finset.sum_lt_sum (fun m _ => ?_) ⟨n, Finset.mem_range.mpr declared, ?_⟩
  · by_cases here : m = n
    · rw [here, Function.update_self]
      exact Bool.toNat_le _
    · rw [Function.update_of_ne here]
  · rw [Function.update_self, off]
    exact Nat.zero_lt_one

theorem flags_end (g : Grammar) : ∃ flags : Flags, ∃ enough, ∀ fuel ≥ enough,
    settle (g.range.map (nempty g)) fuel (fun _ => false) = some flags := by
  have bounded : ∀ flags : Flags, True → known g flags ≤ g.nonterms.length := by
    intro flags _
    calc known g flags ≤ ∑ n ∈ Finset.range g.nonterms.length, 1 :=
          Finset.sum_le_sum fun n _ => Bool.toNat_le (flags n)
      _ = g.nonterms.length := by rw [← Finset.card_eq_sum_ones, Finset.card_range]
  refine settle_ends (P := fun _ => True) (fun step member => ?_) bounded _ trivial
  obtain ⟨n, inRange, rfl⟩ := mem_map.mp member
  exact nempty_progress (mem_range.mp inRange)

variable {fuel : Nat}

section

variable (ended : settle (g.range.map (nempty g)) fuel (fun _ => false) = some flags)
include ended

theorem flags_justified :
    FlagsJustified g flags := by
  refine settle_keeps (P := FlagsJustified g) (fun step member flags now => ?_)
    (by intro n set; exact nomatch set) ended
  obtain ⟨n, inRange, rfl⟩ := mem_map.mp member
  exact nempty_justified (mem_range.mp inRange) now

theorem flags_closed (declared : n < g.nonterms.length) (nothing : empty flags (g.rule n) = true) :
    flags n = true := by
  have honest : ∀ step ∈ g.range.map (nempty g), Honest step := by
    intro step member
    obtain ⟨m, -, rfl⟩ := mem_map.mp member
    exact .conditional
  have quiet := settle_fixed honest ended _ (List.mem_map_of_mem (mem_range.mpr declared))
  by_contra off
  have now : (!flags n && empty flags (g.rule n)) = true := by
    simpa [nothing] using off
  rw [nempty, if_pos now] at quiet
  exact nomatch quiet

end

/-! ### FIRST -/

/-- The sets of the terms and the alternatives in a rule contain what these start with. -/
structure FirstCovered (flags : Flags) (firsts : Nat → Finset Nat) (s : Sets) (p : Rule) :
    Prop where
  terms : ∀ q rule, (q, rule) ∈ p.terms → firstSet flags firsts rule ⊆ s (.tFirst q.id)
  links : ∀ l rule, (l, rule) ∈ p.links → firstSet flags firsts rule ⊆ s (.lSymbs l.id)

variable {s : Sets} {p : Rule}

theorem FirstCovered.mono {firsts : Nat → Finset Nat} {t : Sets}
    (covered : FirstCovered flags firsts s p) (grown : ∀ i, s i ⊆ t i) :
    FirstCovered flags firsts t p where
  terms q rule member := (covered.terms q rule member).trans (grown _)
  links l rule member := (covered.links l rule member).trans (grown _)

theorem FirstCovered.of_same {firsts : Nat → Finset Nat} {p' : Rule}
    (covered : FirstCovered flags firsts s p) (terms : p'.terms = p.terms)
    (links : p'.links = p.links) : FirstCovered flags firsts s p' where
  terms q rule member := covered.terms q rule (terms ▸ member)
  links l rule member := covered.links l rule (links ▸ member)

variable {next : Rule}

theorem FirstCovered.term {firsts : Nat → Finset Nat} {q : Term} {rule : Rule}
    (this : firstSet flags firsts rule ⊆ s (.tFirst q.id))
    (inner : FirstCovered flags firsts s rule) (later : FirstCovered flags firsts s next) :
    FirstCovered flags firsts s (.term q rule next) where
  terms q' rule' member := by
    rcases mem_cons.mp member with same | deeper
    · cases same
      exact this
    · exact (mem_append.mp deeper).elim (inner.terms q' rule') (later.terms q' rule')
  links l' rule' member :=
    (mem_append.mp member).elim (inner.links l' rule') (later.links l' rule')

theorem FirstCovered.alternation {firsts : Nat → Finset Nat} {l : Link} {rule : Rule}
    (this : firstSet flags firsts rule ⊆ s (.lSymbs l.id))
    (inner : FirstCovered flags firsts s rule) (later : FirstCovered flags firsts s next) :
    FirstCovered flags firsts s (.alternation l rule next) where
  terms q' rule' member :=
    (mem_append.mp member).elim (inner.terms q' rule') (later.terms q' rule')
  links l' rule' member := by
    rcases mem_cons.mp member with same | deeper
    · cases same
      exact this
    · exact (mem_append.mp deeper).elim (inner.links l' rule') (later.links l' rule')

/-- Unless `noenter` is set, `setp` is given what the update adds. -/
theorem enter_adds (u : Update Slot Nat) {noenter : Bool} (entering : noenter = false) (s : Sets) :
    u.src.value s ⊆ (run (if noenter then [] else [u]) s).1 u.dst := by
  rw [entering, if_neg Bool.false_ne_true, run_cons]
  change _ ⊆ (u.apply s).1 u.dst
  rw [apply_dst]
  exact Finset.subset_union_left

section Covers

variable {firsts : Nat → Finset Nat} {next : Rule}

def Covers (flags : Flags) (firsts : Nat → Finset Nat) (p : Rule) : Prop :=
  ∀ setp noenter (s : Sets), (∀ n, firsts n ⊆ s (.nFirst n)) →
    FirstCovered flags firsts (run (first flags false setp noenter p) s).1 p ∧
      (noenter = false →
        firstSet flags firsts p ⊆ (run (first flags false setp noenter p) s).1 setp)

/-- The rest of the rule, which is entered if what stands before it can be passed over. -/
theorem Covers.rest (covers : Covers flags firsts next) (setp : Slot) (noenter passing : Bool)
    {s : Sets} (known : ∀ n, firsts n ⊆ s (.nFirst n)) {t : Sets}
    (ran : (run (if passing then first flags false setp noenter next
      else if false = true then [] else first flags false setp true next) s).1 = t) :
    FirstCovered flags firsts t next ∧
      (noenter = false → (if passing then firstSet flags firsts next else ∅) ⊆ t setp) := by
  cases passing with
  | true =>
    obtain ⟨covered, starts⟩ := covers setp noenter s known
    cases ran
    exact ⟨covered, starts⟩
  | false =>
    cases ran
    exact ⟨(covers setp true s known).1, fun _ => Finset.empty_subset _⟩

end Covers

/-- After `first(setp, p, 0)` the sets in the rule are covered, and `setp` too. -/
theorem first_covers (flags : Flags) (firsts : Nat → Finset Nat) (p : Rule) :
    Covers flags firsts p := by
  induction p with
  | eorule => exact fun _ _ _ _ => ⟨⟨nofun, nofun⟩, fun _ => Finset.empty_subset _⟩
  | action next ih =>
    intro setp noenter s known
    obtain ⟨covered, starts⟩ := ih setp noenter s known
    exact ⟨covered.of_same rfl rfl, starts⟩
  | terminal t next ih =>
    intro setp noenter s known
    rw [first, if_neg Bool.false_ne_true, run_append]
    refine ⟨(ih setp true _ fun n => (known n).trans (run_mono _ _ _)).1.of_same rfl rfl, ?_⟩
    exact fun entering => (enter_adds (putin setp t) entering s).trans (run_mono _ _ _)
  | nonterm n npar lineno next ih =>
    intro setp noenter s known
    rw [first, run_append]
    obtain ⟨covered, starts⟩ := ih.rest setp noenter (flags n)
      (fun n => (known n).trans (run_mono _ _ _)) rfl
    refine ⟨covered.of_same rfl rfl, fun entering => Finset.union_subset ?_ (starts entering)⟩
    exact (known n).trans ((enter_adds (setunion setp (.nFirst n)) entering s).trans (run_mono _ _ _))
  | term q rule next ihRule ihNext =>
    intro setp noenter s known
    rw [first, if_neg Bool.false_ne_true, run_append, run_append, run_silent]
    obtain ⟨inner, this⟩ := ihRule (.tFirst q.id) false s known
    have entered := fun entering => @enter_adds (setunion setp (.tFirst q.id)) noenter
      entering (run (first flags false (.tFirst q.id) false rule) s).1
    obtain ⟨covered, starts⟩ := ihNext.rest setp noenter (passes flags q rule)
      (fun n => (known n).trans ((run_mono _ _ _).trans (run_mono _ _ _))) rfl
    refine ⟨.term ((this rfl).trans ((run_mono _ _ _).trans (run_mono _ _ _)))
      (inner.mono fun i => (run_mono _ _ i).trans (run_mono _ _ i)) covered,
      fun entering => Finset.union_subset ?_ (starts entering)⟩
    exact (this rfl).trans ((entered entering).trans (run_mono _ _ _))
  | alternation l rule next ihRule ihNext =>
    intro setp noenter s known
    rw [first, if_neg Bool.false_ne_true, run_append, run_append, run_silent]
    obtain ⟨inner, this⟩ := ihRule (.lSymbs l.id) false s known
    have entered := fun entering => @enter_adds (setunion setp (.lSymbs l.id)) noenter
      entering (run (first flags false (.lSymbs l.id) false rule) s).1
    have rest : ∀ t : Sets, (∀ n, firsts n ⊆ t (.nFirst n)) →
        FirstCovered flags firsts
          (run (if next = .eorule then [] else first flags false setp noenter next) t).1 next ∧
        (noenter = false → firstSet flags firsts next ⊆
          (run (if next = .eorule then [] else first flags false setp noenter next) t).1 setp) := by
      intro t known
      split
      next last =>
        rw [last]
        exact ⟨⟨nofun, nofun⟩, fun _ => Finset.empty_subset _⟩
      next => exact ihNext setp noenter t known
    obtain ⟨covered, starts⟩ := rest _
      fun n => (known n).trans ((run_mono _ _ _).trans (run_mono _ _ _))
    refine ⟨.alternation ((this rfl).trans ((run_mono _ _ _).trans (run_mono _ _ _)))
      (inner.mono fun i => (run_mono _ _ i).trans (run_mono _ _ i)) covered,
      fun entering => Finset.union_subset ?_ (starts entering)⟩
    exact (this rfl).trans ((entered entering).trans (run_mono _ _ _))

def allTerms (g : Grammar) : List (Term × Rule) := g.nonterms.flatMap fun p => p.rule.terms

def allLinks (g : Grammar) : List (Link × Rule) := g.nonterms.flatMap fun p => p.rule.links

theorem eq_of_nodup {α : Type} {items : List α} {name : α → Nat}
    (nodup : (items.map name).Nodup) {x y : α} (first : x ∈ items) (second : y ∈ items)
    (same : name x = name y) : x = y :=
  List.inj_on_of_nodup_map nodup first second same

/-- What may be in a FIRST set: the terminals that its rule leads to. -/
def meaning (g : Grammar) : Slot → Set Nat
  | .nFirst n => {a | Leads g [.nonterm n] a}
  | .tFirst id => {a | ∀ q rule, (q, rule) ∈ allTerms g → q.id = id → Leads g (content rule) a}
  | .lSymbs id => {a | ∀ l rule, (l, rule) ∈ allLinks g → l.id = id → Leads g (content rule) a}
  | _ => Set.univ

/-- The terminals that a rule leads to are among `m`; for a list of alternatives those that the
alternatives lead to. -/
def LeadsInto (g : Grammar) (p : Rule) (m : Set Nat) : Prop :=
  (p.sequence = true → ∀ a, Leads g (content p) a → a ∈ m) ∧
    (p.choices = true → ∀ l rule, (l, rule) ∈ p.alternatives → ∀ a, Leads g (content rule) a → a ∈ m)

theorem LeadsInto.of_content {m : Set Nat} (leads : ∀ a, Leads g (content p) a → a ∈ m) :
    LeadsInto g p m := by
  refine ⟨fun _ => leads, fun _ l rule among a found => leads a ?_⟩
  cases p with
  | alternation l' rule' next =>
    have chosen := Derives.expand (g := g) (.choose among) [] []
    simp only [append_nil] at chosen
    exact Leads.of_derives chosen found
  | _ => exact absurd among not_mem_nil

theorem alternatives_of_sequence (sequence : p.sequence = true) : p.alternatives = [] := by
  cases p with
  | alternation l rule next => exact nomatch sequence
  | _ => rfl

/-- What the rest of a sequence leads to, the whole leads to. -/
theorem LeadsInto.rest {m : Set Nat} (sequence : next.sequence = true)
    (leads : ∀ a, Leads g (content next) a → a ∈ m) : LeadsInto g next m := by
  refine ⟨fun _ => leads, fun _ l rule among => ?_⟩
  rw [alternatives_of_sequence sequence] at among
  exact absurd among not_mem_nil

variable {m : Slot → Set Nat} {us : List (Update Slot Nat)}

theorem inside_silent (inside : ∀ u ∈ us, u.Inside m) : ∀ u ∈ us.map Update.silent, u.Inside m := by
  intro u member
  obtain ⟨v, among, rfl⟩ := mem_map.mp member
  exact inside v among

/-- The one update that is left out when `noenter` is set. -/
theorem inside_enter {u : Update Slot Nat} {noenter : Bool} (inside : noenter = false → u.Inside m) :
    ∀ v ∈ (if noenter then [] else [u]), v.Inside m := by
  intro v member
  cases noenter with
  | true => exact absurd member not_mem_nil
  | false =>
    rw [List.mem_singleton.mp member]
    exact inside rfl

theorem inside_append {vs : List (Update Slot Nat)} (first : ∀ u ∈ us, u.Inside m)
    (second : ∀ u ∈ vs, u.Inside m) : ∀ u ∈ us ++ vs, u.Inside m :=
  fun u member => (mem_append.mp member).elim (first u) (second u)

structure FirstMeaning (g : Grammar) (m : Slot → Set Nat) : Prop where
  nFirst : ∀ n, m (.nFirst n) = meaning g (.nFirst n)
  tFirst : ∀ i, m (.tFirst i) = meaning g (.tFirst i)
  lSymbs : ∀ i, m (.lSymbs i) = meaning g (.lSymbs i)

structure Part (g : Grammar) (p : Rule) : Prop where
  shaped : p.shaped = true
  terms : ∀ t ∈ p.terms, t ∈ allTerms g
  links : ∀ l ∈ p.links, l ∈ allLinks g

namespace Part

variable {rule next : Rule}

theorem action (part : Part g (.action next)) : next.sequence = true ∧ Part g next :=
  have both := Bool.and_eq_true_iff.mp part.shaped
  ⟨both.1, both.2, part.terms, part.links⟩

theorem terminal {t : Nat} (part : Part g (.terminal t next)) :
    next.sequence = true ∧ Part g next :=
  action ⟨part.shaped, part.terms, part.links⟩

theorem nonterm {npar lineno : Nat} (part : Part g (.nonterm n npar lineno next)) :
    next.sequence = true ∧ Part g next :=
  action ⟨part.shaped, part.terms, part.links⟩

theorem term {q : Term} (part : Part g (.term q rule next)) :
    (q, rule) ∈ allTerms g ∧ Part g rule ∧ next.sequence = true ∧ Part g next := by
  obtain ⟨shaped, terms, links⟩ := part
  simp only [Rule.shaped, Bool.and_eq_true] at shaped
  obtain ⟨here, others⟩ := List.forall_mem_cons.mp terms
  obtain ⟨terms, terms'⟩ := forall_mem_append.mp others
  obtain ⟨links, links'⟩ := forall_mem_append.mp links
  exact ⟨here, ⟨shaped.1.1, terms, links⟩, shaped.1.2, shaped.2, terms', links'⟩

theorem alternation {l : Link} (part : Part g (.alternation l rule next)) :
    (l, rule) ∈ allLinks g ∧ Part g rule ∧ next.choices = true ∧ Part g next := by
  obtain ⟨shaped, terms, links⟩ := part
  simp only [Rule.shaped, Bool.and_eq_true] at shaped
  obtain ⟨here, others⟩ := List.forall_mem_cons.mp links
  obtain ⟨terms, terms'⟩ := forall_mem_append.mp terms
  obtain ⟨links, links'⟩ := forall_mem_append.mp others
  exact ⟨here, ⟨shaped.1.1, terms, links⟩, shaped.1.2, shaped.2, terms', links'⟩

end Part

/-- All that `first` adds lies in the FIRST sets. -/
theorem first_inside (means : FirstMeaning g m) (justified : FlagsJustified g flags) (p : Rule)
    (part : Part g p) (setp : Slot) (noenter : Bool)
    (into : noenter = false → LeadsInto g p (m setp)) :
    ∀ u ∈ first flags false setp noenter p, u.Inside m := by
  induction p generalizing setp noenter with
  | eorule => exact fun u member => absurd member not_mem_nil
  | action next ih =>
    obtain ⟨sequence, part⟩ := part.action
    exact ih part setp noenter fun entering =>
      .rest sequence fun a leads => (into entering).1 sequence a leads
  | terminal t next ih =>
    obtain ⟨sequence, part⟩ := part.terminal
    refine inside_append (inside_enter fun entering => ?_)
      (ih part setp true fun entering => Bool.noConfusion entering)
    exact (into entering).1 sequence t ⟨content next, .refl⟩
  | nonterm n npar lineno next ih =>
    obtain ⟨sequence, part⟩ := part.nonterm
    refine inside_append (inside_enter fun entering a leads => ?_) ?_
    · change a ∈ m (.nFirst n) at leads
      rw [means.nFirst] at leads
      exact (into entering).1 sequence a (Leads.append leads (content next))
    · split
      next nothing =>
        exact ih part setp noenter fun entering =>
          .rest sequence fun a leads => (into entering).1 sequence a
            (Leads.skip [.nonterm n] (justified n nothing) leads)
      next => exact ih part setp true fun entering => Bool.noConfusion entering
  | term q rule next ihRule ihNext =>
    obtain ⟨here, inner, sequence, part⟩ := part.term
    refine inside_append (inside_append ?_ (inside_enter fun entering a among => ?_)) ?_
    · refine inside_silent (ihRule inner _ false fun _ =>
        .of_content fun a leads => ?_)
      rw [means.tFirst]
      intro q' rule' member same
      cases eq_of_nodup g.ownTerms member here same
      exact leads
    · change a ∈ m (.tFirst q.id) at among
      rw [means.tFirst] at among
      exact (into entering).1 sequence a
        ((Leads.enter_term (among q rule here rfl)).append (content next))
    · split
      next passing =>
        exact ihNext part setp noenter fun entering =>
          .rest sequence fun a leads => (into entering).1 sequence a
            (Leads.skip [.term q rule] (passes_justified justified inner.shaped passing) leads)
      next => exact ihNext part setp true fun entering => Bool.noConfusion entering
  | alternation l rule next ihRule ihNext =>
    obtain ⟨here, inner, choices, part⟩ := part.alternation
    refine inside_append (inside_append ?_ (inside_enter fun entering a among => ?_)) ?_
    · refine inside_silent (ihRule inner _ false fun _ =>
        .of_content fun a leads => ?_)
      rw [means.lSymbs]
      intro l' rule' member same
      cases eq_of_nodup g.ownLinks member here same
      exact leads
    · change a ∈ m (.lSymbs l.id) at among
      rw [means.lSymbs] at among
      exact (into entering).2 choices l rule List.mem_cons_self a (among l rule here rfl)
    · split
      next => exact fun u member => absurd member not_mem_nil
      next more =>
        refine ihNext part setp noenter fun entering =>
          ⟨fun sequence => ?_, fun _ l' rule' among a leads =>
            (into entering).2 choices l' rule' (List.mem_cons_of_mem _ among) a leads⟩
        cases next with
        | eorule => exact absurd rfl more
        | alternation l' rule' next' => exact absurd sequence Bool.false_ne_true
        | _ => exact absurd choices Bool.false_ne_true

/-- An update of `setp` that is reported, or when `flag` is 0 one of a set in the rule. -/
def FirstUpdate (flag : Bool) (setp : Slot) (u : Update Slot Nat) : Prop :=
  u.dst = setp ∧ u.reported = true ∨
    flag = false ∧ ∃ id, u.dst = .tFirst id ∨ u.dst = .lSymbs id

theorem firstUpdate_enter {flag : Bool} {setp : Slot} {noenter : Bool} {v : Update Slot Nat}
    (dst : v.dst = setp) (reported : v.reported = true) :
    ∀ u ∈ (if noenter then [] else [v]), FirstUpdate flag setp u := by
  intro u member
  cases noenter with
  | true => exact absurd member not_mem_nil
  | false =>
    rw [List.mem_singleton.mp member]
    exact .inl ⟨dst, reported⟩

/-- The updates for what is inside a term or an alternative. -/
theorem firstUpdate_nested {flag : Bool} {setp x : Slot} {id : Nat}
    (slot : x = .tFirst id ∨ x = .lSymbs id) (updates : ∀ u ∈ us, FirstUpdate false x u) :
    ∀ u ∈ (if flag then [] else us.map Update.silent), FirstUpdate flag setp u := by
  intro u member
  cases flag with
  | true => exact absurd member not_mem_nil
  | false =>
    obtain ⟨v, inside, rfl⟩ := mem_map.mp member
    refine .inr ⟨rfl, ?_⟩
    rcases updates v inside with ⟨same, -⟩ | ⟨-, deeper⟩
    · exact ⟨id, by rwa [← same] at slot⟩
    · exact deeper

/-- What `first` adds and reports. -/
theorem first_updates (flags : Flags) (flag : Bool) (setp : Slot) (noenter : Bool) (p : Rule) :
    ∀ u ∈ first flags flag setp noenter p, FirstUpdate flag setp u := by
  have both : ∀ {us vs : List (Update Slot Nat)} {flag : Bool} {setp : Slot},
      (∀ u ∈ us, FirstUpdate flag setp u) → (∀ u ∈ vs, FirstUpdate flag setp u) →
      ∀ u ∈ us ++ vs, FirstUpdate flag setp u :=
    fun first second u member => (mem_append.mp member).elim (first u) (second u)
  induction p generalizing flag setp noenter with
  | eorule => exact nofun
  | action next ih => exact ih flag setp noenter
  | terminal t next ih =>
    refine both (firstUpdate_enter rfl rfl) ?_
    split
    next => exact nofun
    next => exact ih flag setp true
  | nonterm n npar lineno next ih =>
    refine both (firstUpdate_enter rfl rfl) ?_
    split_ifs
    · exact ih flag setp noenter
    · exact nofun
    · exact ih flag setp true
  | term q rule next ihRule ihNext =>
    refine both (both (firstUpdate_nested (.inl rfl) (ihRule false _ false))
      (firstUpdate_enter rfl rfl)) ?_
    split_ifs
    · exact ihNext flag setp noenter
    · exact nofun
    · exact ihNext flag setp true
  | alternation l rule next ihRule ihNext =>
    refine both (both (firstUpdate_nested (.inr rfl) (ihRule false _ false))
      (firstUpdate_enter rfl rfl)) ?_
    split_ifs
    · exact nofun
    · exact ihNext flag setp noenter

structure FirstSolved (g : Grammar) (flags : Flags) (s : Sets) : Prop where
  justified : ∀ n, ∀ a ∈ s (.nFirst n), Leads g [.nonterm n] a
  first : ∀ n < g.nonterms.length,
    firstSet flags (fun n => s (.nFirst n)) (g.rule n) ⊆ s (.nFirst n)
  covered : ∀ n < g.nonterms.length, FirstCovered flags (fun n => s (.nFirst n)) s (g.rule n)

theorem rule_mem (declared : n < g.nonterms.length) : ∃ p ∈ g.nonterms, g.rule n = p.rule := by
  refine ⟨g.nonterms[n], List.getElem_mem declared, ?_⟩
  rw [Grammar.rule, List.getElem?_eq_getElem declared]

theorem rule_part (declared : n < g.nonterms.length) : Part g (g.rule n) := by
  obtain ⟨p, member, same⟩ := rule_mem declared
  exact ⟨rule_shaped g n, fun t inside => List.mem_flatMap.mpr ⟨p, member, same ▸ inside⟩,
    fun l inside => List.mem_flatMap.mpr ⟨p, member, same ▸ inside⟩⟩

theorem firsts_inside (justified : FlagsJustified g flags) :
    ∀ us ∈ firsts g flags, ∀ u ∈ us, u.Inside (meaning g) := by
  intro us member
  obtain ⟨n, inRange, rfl⟩ := mem_map.mp member
  have declared := mem_range.mp inRange
  refine first_inside ⟨fun _ => rfl, fun _ => rfl, fun _ => rfl⟩ justified _
    (rule_part declared) _ false fun _ => .of_content fun a leads => ?_
  have opened := Derives.expand (g := g) (.nonterm declared) [] []
  simp only [append_nil] at opened
  exact Leads.of_derives opened leads

theorem firsts_solved (justified : FlagsJustified g flags) {t : Sets}
    (ended : settle ((firsts g flags).map run) fuel (fun _ => ∅) = some t) :
    FirstSolved g flags t := by
  have inside := firsts_inside justified
  obtain ⟨last, -, swept⟩ := runs_last inside (by simp) ended
  have reported : ∀ n, ∀ us ∈ firsts g flags, ∀ u ∈ us, u.dst = .nFirst n → u.reported = true := by
    intro n us member u among dst
    obtain ⟨m, -, rfl⟩ := mem_map.mp member
    rcases first_updates flags false _ false _ u among with ⟨-, told⟩ | ⟨-, id, term | link⟩
    · exact told
    · exact nomatch dst.symm.trans term
    · exact nomatch dst.symm.trans link
  have same : ∀ n, t (.nFirst n) = last (.nFirst n) := by
    intro n
    have quiet := sweep_runs_quiet (reported n) (congrArg Prod.snd swept)
    rwa [swept] at quiet
  have covers : ∀ n < g.nonterms.length,
      FirstCovered flags (fun n => t (.nFirst n)) t (g.rule n) ∧
        firstSet flags (fun n => t (.nFirst n)) (g.rule n) ⊆ t (.nFirst n) := by
    intro n declared
    have member : first flags false (.nFirst n) false (g.rule n) ∈ firsts g flags :=
      List.mem_map_of_mem (mem_range.mpr declared)
    obtain ⟨a, before, after⟩ := sweep_runs member last false
    rw [swept] at after
    obtain ⟨covered, starts⟩ := first_covers flags (fun n => t (.nFirst n)) (g.rule n) (.nFirst n)
      false a fun m => (same m).subset.trans (before (.nFirst m))
    exact ⟨covered.mono after, (starts rfl).trans (after _)⟩
  refine ⟨fun n a member => runs_inside inside (by simp) ended (.nFirst n) member,
    fun n declared => (covers n declared).2, fun n declared => (covers n declared).1⟩

end AckFormal.LLgen.Solved
