import AckFormal.LLgen.Derivation

/-!
# How a form can start

The symbols a rule can start with, as a function of the FIRST sets of the
nonterminals, and the same for a form.  If the sets of the nonterminals cover their
rules, no derivation leads to another terminal; if they are justified by
derivations, every symbol is led to.
-/

namespace AckFormal.LLgen.Derivation

open LLgen.Compute
open Finset (empty_subset mem_union notMem_empty union_empty union_subset)

def passes (flags : Flags) (q : Term) (rule : Rule) : Bool :=
  q.kind = .star || q.kind = .opt || empty flags rule

def firstSet (flags : Flags) (firsts : Nat → Finset Nat) : Rule → Finset Nat
  | .eorule => ∅
  | .action next => firstSet flags firsts next
  | .terminal t _ => {t}
  | .nonterm n _ _ next => firsts n ∪ if flags n then firstSet flags firsts next else ∅
  | .term q rule next =>
    firstSet flags firsts rule ∪ if passes flags q rule then firstSet flags firsts next else ∅
  | .alternation _ rule next => firstSet flags firsts rule ∪ firstSet flags firsts next

def Sym.empty (flags : Flags) : Sym → Bool
  | .token _ => false
  | .nonterm n => flags n
  | .term q rule => passes flags q rule
  | .loop .. => true
  | .choice alts => Compute.empty flags alts

def Sym.first (flags : Flags) (firsts : Nat → Finset Nat) : Sym → Finset Nat
  | .token t => {t}
  | .nonterm n => firsts n
  | .term _ rule => firstSet flags firsts rule
  | .loop _ rule left => if left = some 0 then ∅ else firstSet flags firsts rule
  | .choice alts => firstSet flags firsts alts

def formEmpty (flags : Flags) (form : List Sym) : Bool := form.all (Sym.empty flags)

def formFirst (flags : Flags) (firsts : Nat → Finset Nat) : List Sym → Finset Nat
  | [] => ∅
  | x :: form => x.first flags firsts ∪ if x.empty flags then formFirst flags firsts form else ∅

section Cover

variable {g : Grammar} {flags : Flags} {firsts : Nat → Finset Nat}

theorem formEmpty_append (form form' : List Sym) :
    formEmpty flags (form ++ form') = (formEmpty flags form && formEmpty flags form') :=
  List.all_append

theorem formEmpty_content (p : Rule) : formEmpty flags (content p) = Compute.empty flags p := by
  induction p with
  | eorule => rfl
  | action next ih => exact ih
  | nonterm n npar lineno next ih => exact congrArg (flags n && ·) ih
  | terminal t next ih => rfl
  | term q rule next _ ih => exact congrArg (passes flags q rule && ·) ih
  | alternation l rule next _ _ => exact Bool.and_true _

theorem formFirst_append (form form' : List Sym) :
    formFirst flags firsts (form ++ form') =
      formFirst flags firsts form ∪
        if formEmpty flags form then formFirst flags firsts form' else ∅ := by
  induction form with
  | nil => simp [formFirst, formEmpty]
  | cons x form ih =>
    rw [List.cons_append, formFirst, formFirst, ih]
    cases nothing : x.empty flags <;> simp [formEmpty, nothing]

theorem formFirst_content (p : Rule) :
    formFirst flags firsts (content p) = firstSet flags firsts p := by
  induction p with
  | eorule => rfl
  | action next ih => exact ih
  | nonterm n npar lineno next ih => rw [content, formFirst, ih]; rfl
  | terminal t next ih => simp [content, formFirst, Sym.first, Sym.empty, firstSet]
  | term q rule next _ ih => rw [content, formFirst, ih]; rfl
  | alternation l rule next _ _ => simp [content, formFirst, Sym.first]

theorem formEmpty_copies (rule : Rule) (count : Nat) (some : count ≠ 0) :
    formEmpty flags (copies rule count) = Compute.empty flags rule := by
  induction count with
  | zero => exact absurd rfl some
  | succ count ih =>
    rw [copies, formEmpty_append, formEmpty_content]
    cases count with
    | zero => exact Bool.and_true _
    | succ count => rw [ih (Nat.succ_ne_zero count), Bool.and_self]

theorem formFirst_copies (rule : Rule) (count : Nat) :
    formFirst flags firsts (copies rule count) ⊆ firstSet flags firsts rule := by
  induction count with
  | zero => exact empty_subset _
  | succ count ih =>
    rw [copies, formFirst_append, formFirst_content]
    refine union_subset (Finset.Subset.refl _) ?_
    split
    next => exact ih
    next => exact empty_subset _

section

variable {p rule : Rule} {l : Link} (among : (l, rule) ∈ p.alternatives)
include among

theorem empty_of_alternative
    (nothing : Compute.empty flags rule = true) : Compute.empty flags p = true := by
  induction p with
  | alternation m rule' next _ ih =>
    rcases List.mem_cons.mp among with same | later
    · cases same
      simp [Compute.empty, nothing]
    · have other : next ≠ .eorule := by
        rintro rfl
        exact absurd later List.not_mem_nil
      simp [Compute.empty, other, ih later]
  | _ => exact absurd among List.not_mem_nil

theorem firstSet_alternative :
    firstSet flags firsts rule ⊆ firstSet flags firsts p := by
  induction p with
  | alternation m rule' next _ ih =>
    rcases List.mem_cons.mp among with same | later
    · cases same
      exact Finset.subset_union_left
    · exact (ih later).trans Finset.subset_union_right
  | _ => exact absurd among List.not_mem_nil

end

structure Covering (g : Grammar) (flags : Flags) (firsts : Nat → Finset Nat) : Prop where
  empty : ∀ n < g.nonterms.length, Compute.empty flags (g.rule n) = true → flags n = true
  first : ∀ n < g.nonterms.length, firstSet flags firsts (g.rule n) ⊆ firsts n

variable (covering : Covering g flags firsts)
include covering

/-- A replacement starts with nothing that the symbol does not start with. -/
theorem Covering.expands {x : Sym} {w : List Sym}
    (expands : Expands g x w) :
    (formEmpty flags w = true → x.empty flags = true) ∧
      formFirst flags firsts w ⊆ x.first flags firsts := by
  cases expands with
  | nonterm declared =>
    rw [formEmpty_content, formFirst_content]
    exact ⟨covering.empty _ declared, covering.first _ declared⟩
  | fixed kind rule =>
    refine ⟨fun nothing => ?_, formFirst_copies rule _⟩
    rw [formEmpty_copies rule _ (by omega)] at nothing
    simp [Sym.empty, passes, nothing]
  | star kind rule =>
    refine ⟨fun _ => by simp [Sym.empty, passes, kind], ?_⟩
    simp only [formFirst, Sym.first, ite_self, union_empty]
    split
    next => exact empty_subset _
    next => exact Finset.Subset.refl _
  | plus kind rule =>
    rw [formEmpty_append, formEmpty_content, formFirst_append, formFirst_content]
    refine ⟨fun nothing => ?_, union_subset (Finset.Subset.refl _) ?_⟩
    · simp [Sym.empty, passes, (Bool.and_eq_true _ _).mp nothing]
    · simp only [formFirst, Sym.first, ite_self, union_empty]
      split_ifs
      all_goals first | exact empty_subset _ | exact Finset.Subset.refl _
  | opt kind rule =>
    refine ⟨fun _ => by simp [Sym.empty, passes, kind], ?_⟩
    simp [formFirst, Sym.first]
  | «continue» q rule more =>
    refine ⟨fun _ => rfl, ?_⟩
    rw [formFirst_append, formFirst_content, Sym.first, if_neg more]
    refine union_subset (Finset.Subset.refl _) ?_
    simp only [formFirst, Sym.first, ite_self, union_empty]
    split_ifs
    all_goals first | exact empty_subset _ | exact Finset.Subset.refl _
  | stop q rule left => exact ⟨fun _ => rfl, empty_subset _⟩
  | choose among =>
    rw [formEmpty_content, formFirst_content]
    exact ⟨empty_of_alternative among, firstSet_alternative among⟩

theorem Covering.step {form form' : List Sym}
    (step : Step g form form') :
    (formEmpty flags form' = true → formEmpty flags form = true) ∧
      formFirst flags firsts form' ⊆ formFirst flags firsts form := by
  obtain ⟨before, expands, after⟩ := step
  rename_i x w
  obtain ⟨nothing, starts⟩ := covering.expands expands
  constructor
  · simp only [formEmpty_append, Bool.and_eq_true]
    rintro ⟨⟨first, second⟩, third⟩
    exact ⟨first, by simp only [formEmpty, List.all_cons, Bool.and_eq_true]; exact ⟨nothing second, third⟩⟩
  · rw [List.append_assoc, formFirst_append, formFirst_append before]
    refine Finset.union_subset_union_right ?_
    split
    next =>
      rw [formFirst_append, formFirst]
      refine Finset.union_subset_union starts ?_
      cases vanishes : formEmpty flags w with
      | false => exact empty_subset _
      | true => simp [nothing vanishes]
    next => exact Finset.Subset.refl _

theorem Covering.derives {form form' : List Sym}
    (derives : Derives g form form') :
    formFirst flags firsts form' ⊆ formFirst flags firsts form := by
  induction derives with
  | refl => exact Finset.Subset.refl _
  | tail _ step ih => exact (covering.step step).2.trans ih

/-- A terminal that a form leads to is one that it starts with. -/
theorem Covering.leads {form : List Sym} {a : Nat}
    (leads : Leads g form a) : a ∈ formFirst flags firsts form := by
  obtain ⟨rest, derives⟩ := leads
  refine covering.derives derives ?_
  simp [formFirst, Sym.first]

end Cover

section Justify

variable {g : Grammar} {flags : Flags} {firsts : Nat → Finset Nat}

theorem Derives.pass_term {q : Term} {rule : Rule}
    (passing : q.kind = .star ∨ q.kind = .opt ∨ Derives g (content rule) []) :
    Derives g [.term q rule] [] := by
  have stop : ∀ left, Derives g [.loop q rule left] [] :=
    fun left => Derives.expand (.stop q rule left) [] []
  have copied : Derives g (content rule) [] → ∀ count, Derives g (copies rule count) [] := by
    intro nothing count
    induction count with
    | zero => exact .refl
    | succ count ih => exact nothing.append ih
  cases kind : q.kind with
  | star => exact (Derives.expand (.star kind rule) [] []).trans (stop _)
  | opt => exact (Derives.expand (.opt kind rule) [] []).trans (stop _)
  | fixed =>
    have nothing : Derives g (content rule) [] := by simpa [kind] using passing
    have opened := Derives.expand (g := g) (.fixed kind rule) [] []
    simp only [List.append_nil] at opened
    exact opened.trans (copied nothing _)
  | plus =>
    have nothing : Derives g (content rule) [] := by simpa [kind] using passing
    have opened := Derives.expand (g := g) (.plus kind rule) [] []
    simp only [List.append_nil] at opened
    exact opened.trans (nothing.append (stop _))

theorem Leads.enter_term {q : Term} {rule : Rule} {a : Nat} (leads : Leads g (content rule) a) :
    Leads g [.term q rule] a := by
  have again : ∀ left, left ≠ some 0 → Leads g [.loop q rule left] a := by
    intro left more
    have opened := Derives.expand (g := g) (.continue q rule more) [] []
    simp only [List.append_nil] at opened
    exact Leads.of_derives opened (leads.append _)
  cases kind : q.kind with
  | star =>
    refine Leads.of_derives (Derives.expand (.star kind rule) [] []) (again _ ?_)
    unfold limit
    split
    next => exact nofun
    next some => exact fun zero => some (Option.some.inj zero)
  | opt => exact Leads.of_derives (Derives.expand (.opt kind rule) [] []) (again _ nofun)
  | fixed =>
    have opened := Derives.expand (g := g) (.fixed kind rule) [] []
    simp only [List.append_nil] at opened
    obtain ⟨count, positive⟩ : ∃ count, max q.num 1 = count + 1 := ⟨max q.num 1 - 1, by omega⟩
    rw [positive] at opened
    exact Leads.of_derives opened (leads.append _)
  | plus =>
    have opened := Derives.expand (g := g) (.plus kind rule) [] []
    simp only [List.append_nil] at opened
    exact Leads.of_derives opened (leads.append _)

/-- The flags say of a nonterminal that it produces empty only if it does. -/
def FlagsJustified (g : Grammar) (flags : Flags) : Prop :=
  ∀ n, flags n = true → Derives g [.nonterm n] []

variable (justified : FlagsJustified g flags)
include justified

/-- A rule that is found to produce empty does; in a list of alternatives it is one of them. -/
theorem empty_justified {p : Rule} (shaped : p.shaped = true)
    (nothing : Compute.empty flags p = true) :
    Derives g (content p) [] ∧ (p.choices = true → p ≠ .eorule →
      ∃ l rule, (l, rule) ∈ p.alternatives ∧ Derives g (content rule) []) := by
  induction p with
  | eorule => exact ⟨.refl, fun _ different => absurd rfl different⟩
  | action next ih =>
    simp only [Rule.shaped, Bool.and_eq_true] at shaped
    exact ⟨(ih shaped.2 nothing).1, nofun⟩
  | terminal t next ih => exact nomatch nothing
  | nonterm n npar lineno next ih =>
    simp only [Rule.shaped, Compute.empty, Bool.and_eq_true] at shaped nothing
    exact ⟨(justified n nothing.1).append (ih shaped.2 nothing.2).1, nofun⟩
  | term q rule next ihRule ihNext =>
    simp only [Rule.shaped, Compute.empty, Bool.and_eq_true, Bool.or_eq_true,
      decide_eq_true_eq] at shaped nothing
    have passed : Derives g [.term q rule] [] := by
      refine Derives.pass_term ?_
      rcases nothing.1 with (star | opt) | inner
      · exact .inl star
      · exact .inr (.inl opt)
      · exact .inr (.inr (ihRule shaped.1.1 inner).1)
    exact ⟨passed.append (ihNext shaped.2 nothing.2).1, nofun⟩
  | alternation l rule next ihRule ihNext =>
    simp only [Rule.shaped, Compute.empty, Bool.and_eq_true, Bool.or_eq_true,
      decide_eq_true_eq] at shaped nothing
    have found : ∃ m r, (m, r) ∈ (Rule.alternation l rule next).alternatives ∧
        Derives g (content r) [] := by
      rcases nothing with this | ⟨more, later⟩
      · exact ⟨l, rule, List.mem_cons_self, (ihRule shaped.1.1 this).1⟩
      · obtain ⟨m, r, among, derives⟩ := (ihNext shaped.2 later).2 shaped.1.2 more
        exact ⟨m, r, List.mem_cons_of_mem _ among, derives⟩
    refine ⟨?_, fun _ _ => found⟩
    obtain ⟨m, r, among, derives⟩ := found
    have chosen := Derives.expand (g := g) (.choose among) [] []
    simp only [List.append_nil] at chosen
    exact chosen.trans derives

theorem passes_justified {q : Term} {rule : Rule}
    (shaped : rule.shaped = true) (passing : passes flags q rule = true) :
    Derives g [.term q rule] [] := by
  simp only [passes, Bool.or_eq_true, decide_eq_true_eq] at passing
  refine Derives.pass_term ?_
  rcases passing with (star | opt) | inner
  · exact .inl star
  · exact .inr (.inl opt)
  · exact .inr (.inr (empty_justified justified shaped inner).1)

/-- A rule leads to each symbol it is found to start with; in a list of alternatives one of
them does. -/
theorem firstSet_justified
    (nonterms : ∀ n, ∀ a ∈ firsts n, Leads g [.nonterm n] a) {p : Rule} (shaped : p.shaped = true)
    {a : Nat} (starts : a ∈ firstSet flags firsts p) :
    Leads g (content p) a ∧ (p.choices = true →
      ∃ l rule, (l, rule) ∈ p.alternatives ∧ Leads g (content rule) a) := by
  induction p with
  | eorule => exact absurd starts (notMem_empty a)
  | action next ih =>
    simp only [Rule.shaped, Bool.and_eq_true] at shaped
    exact ⟨(ih shaped.2 starts).1, nofun⟩
  | terminal t next ih =>
    cases Finset.mem_singleton.mp starts
    exact ⟨⟨content next, .refl⟩, nofun⟩
  | nonterm n npar lineno next ih =>
    simp only [Rule.shaped, Bool.and_eq_true] at shaped
    refine ⟨?_, nofun⟩
    rcases mem_union.mp starts with this | later
    · exact (nonterms n a this).append (content next)
    · split at later
      next flag => exact Leads.skip [.nonterm n] (justified n flag) (ih shaped.2 later).1
      next => exact absurd later (notMem_empty a)
  | term q rule next ihRule ihNext =>
    simp only [Rule.shaped, Bool.and_eq_true] at shaped
    refine ⟨?_, nofun⟩
    rcases mem_union.mp starts with this | later
    · exact (Leads.enter_term (ihRule shaped.1.1 this).1).append (content next)
    · split at later
      next passing =>
        exact Leads.skip [.term q rule] (passes_justified justified shaped.1.1 passing)
          (ihNext shaped.2 later).1
      next => exact absurd later (notMem_empty a)
  | alternation l rule next ihRule ihNext =>
    simp only [Rule.shaped, Bool.and_eq_true] at shaped
    have found : ∃ m r, (m, r) ∈ (Rule.alternation l rule next).alternatives ∧
        Leads g (content r) a := by
      rcases mem_union.mp starts with this | later
      · exact ⟨l, rule, List.mem_cons_self, (ihRule shaped.1.1 this).1⟩
      · obtain ⟨m, r, among, leads⟩ := (ihNext shaped.2 later).2 shaped.1.2
        exact ⟨m, r, List.mem_cons_of_mem _ among, leads⟩
    refine ⟨?_, fun _ => found⟩
    obtain ⟨m, r, among, leads⟩ := found
    have chosen := Derives.expand (g := g) (.choose among) [] []
    simp only [List.append_nil] at chosen
    exact Leads.of_derives chosen leads

end Justify

end AckFormal.LLgen.Derivation
