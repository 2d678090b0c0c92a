import AckFormal.Lib.Inclusion

/-!
# Grammars of LLgen and their sets

The rules that `LLgen.g` builds, and what `compute.c` finds out about them: which
nonterminals produce empty, the FIRST and FOLLOW sets of nonterminals and terms,
and for each alternative the symbols on which it is chosen and those on which one
of the next ones is.  The sets are kept in the nonterminals, the terms and the
alternatives; here a set is named by the place where it is kept.
-/

namespace AckFormal.LLgen.Compute

open Lib.Settle Lib.Inclusion

inductive Kind where
  | fixed
  | star
  | plus
  | opt
  deriving DecidableEq

/-- `struct term`; `id` stands for its address.  A count of 0 is no count. -/
structure Term where
  id : Nat
  kind : Kind := .fixed
  num : Nat := 0
  resolver : Bool := false
  lineno : Nat := 0
  deriving DecidableEq

structure Link where
  id : Nat
  cond : Bool := false
  prefering : Bool := false
  avoiding : Bool := false
  lineno : Nat := 0
  deriving DecidableEq

/-- A rule: its first element and the elements after it.  Literals are terminals. -/
inductive Rule where
  | eorule
  | action (next : Rule)
  | nonterm (n npar lineno : Nat) (next : Rule)
  | terminal (t : Nat) (next : Rule)
  | term (q : Term) (rule next : Rule)
  | alternation (l : Link) (rule next : Rule)
  deriving DecidableEq

def Rule.alternatives : Rule → List (Link × Rule)
  | .alternation l rule next => (l, rule) :: next.alternatives
  | _ => []

def Rule.sequence : Rule → Bool
  | .eorule => true
  | .action next | .nonterm _ _ _ next | .terminal _ next | .term _ _ next => next.sequence
  | .alternation .. => false

def Rule.choices : Rule → Bool
  | .eorule => true
  | .alternation _ _ next => next.choices
  | _ => false

def Rule.shaped : Rule → Bool
  | .eorule => true
  | .action next | .nonterm _ _ _ next | .terminal _ next => next.sequence && next.shaped
  | .term _ rule next => rule.shaped && next.sequence && next.shaped
  | .alternation _ rule next => rule.shaped && next.choices && next.shaped

def Rule.terms : Rule → List (Term × Rule)
  | .eorule => []
  | .action next | .nonterm _ _ _ next | .terminal _ next => next.terms
  | .term q rule next => (q, rule) :: (rule.terms ++ next.terms)
  | .alternation _ rule next => rule.terms ++ next.terms

def Rule.links : Rule → List (Link × Rule)
  | .eorule => []
  | .action next | .nonterm _ _ _ next | .terminal _ next => next.links
  | .term _ rule next => rule.links ++ next.links
  | .alternation l rule next => (l, rule) :: (rule.links ++ next.links)

def Rule.nonts : Rule → List Nat
  | .eorule => []
  | .action next | .terminal _ next => next.nonts
  | .nonterm n _ _ next => n :: next.nonts
  | .term _ rule next | .alternation _ rule next => rule.nonts ++ next.nonts

/-- A nonterminal; `recursive` is the flag that `do_lengthcomp` sets. -/
structure Nont where
  rule : Rule
  nparams : Nat := 0
  recursive : Bool := false
  lineno : Nat := 0

/-- A grammar whose nonterminals have all been declared, in one of the files; a term and an
alternative belong to one place in one rule. -/
structure Grammar where
  nonterms : List Nont
  files : List (List Nat)
  start : List Nat
  shaped : ∀ p ∈ nonterms, p.rule.shaped = true
  declared : ∀ p ∈ nonterms, ∀ n ∈ p.rule.nonts, n < nonterms.length
  started : ∀ n ∈ start, n < nonterms.length
  listed : ∀ n < nonterms.length, n ∈ files.flatten
  ownTerms : ((nonterms.flatMap fun p => p.rule.terms).map fun t => t.1.id).Nodup
  ownLinks : ((nonterms.flatMap fun p => p.rule.links).map fun l => l.1.id).Nodup

def Grammar.rule (g : Grammar) (n : Nat) : Rule :=
  match g.nonterms[n]? with
  | some p => p.rule
  | none => .eorule

inductive Slot where
  | nFirst (n : Nat)
  | nFollow (n : Nat)
  | tFirst (id : Nat)
  | tFollow (id : Nat)
  | lSymbs (id : Nat)
  | lOthers (id : Nat)
  deriving DecidableEq

abbrev Sets := Slot → Finset Nat

abbrev Flags := Nat → Bool

def eofile : Nat := 0

def setunion (a b : Slot) : Update Slot Nat := { dst := a, src := .set b }

def putin (a : Slot) (t : Nat) : Update Slot Nat := { dst := a, src := .element t }

def empty (flags : Flags) : Rule → Bool
  | .eorule => true
  | .action next => empty flags next
  | .nonterm n _ _ next => flags n && empty flags next
  | .terminal _ _ => false
  | .term q rule next =>
    (q.kind = .star || q.kind = .opt || empty flags rule) && empty flags next
  | .alternation _ rule next =>
    empty flags rule || (next ≠ .eorule && empty flags next)

def nempty (g : Grammar) (n : Nat) (flags : Flags) : Flags × Bool :=
  if !flags n && empty flags (g.rule n) then
    (Function.update flags n true, true)
  else
    (flags, false)

/-- The additions of `first(setp, p, flag)`.  Once `noenter` is set nothing more is added to
`setp`, and only the sets inside the rest of the rule are computed; whether these change is not
told. -/
def first (flags : Flags) (flag : Bool) (setp : Slot) (noenter : Bool) :
    Rule → List (Update Slot Nat)
  | .eorule => []
  | .action next => first flags flag setp noenter next
  | .terminal t next =>
    (if noenter then [] else [putin setp t]) ++
      if flag then [] else first flags flag setp true next
  | .nonterm n _ _ next =>
    (if noenter then [] else [setunion setp (.nFirst n)]) ++
      if flags n then first flags flag setp noenter next
      else if flag then [] else first flags flag setp true next
  | .term q rule next =>
    (if flag then [] else (first flags false (.tFirst q.id) false rule).map Update.silent) ++
      (if noenter then [] else [setunion setp (.tFirst q.id)]) ++
      if q.kind = .star || q.kind = .opt || empty flags rule then
        first flags flag setp noenter next
      else if flag then [] else first flags flag setp true next
  | .alternation l rule next =>
    (if flag then [] else (first flags false (.lSymbs l.id) false rule).map Update.silent) ++
      (if noenter then [] else [setunion setp (.lSymbs l.id)]) ++
      if next = .eorule then [] else first flags flag setp noenter next

def repeats (q : Term) : Bool := q.kind = .star || q.kind = .plus || q.num ≠ 0

def follow (flags : Flags) (setp : Slot) : Rule → List (Update Slot Nat)
  | .eorule => []
  | .action next | .terminal _ next => follow flags setp next
  | .term q rule next =>
    (if empty flags next then [setunion (.tFollow q.id) setp] else []) ++
      first flags true (.tFollow q.id) false next ++
      (if repeats q then follow flags (.tFirst q.id) rule else []) ++
      follow flags (.tFollow q.id) rule ++ follow flags setp next
  | .alternation _ rule next => follow flags setp rule ++ follow flags setp next
  | .nonterm n _ _ next =>
    first flags true (.nFollow n) false next ++
      (if empty flags next then [setunion (.nFollow n) setp] else []) ++ follow flags setp next

def coOthers : Rule → List (Update Slot Nat)
  | .alternation l1 _ (.alternation l2 rule rest) =>
    setunion (.lOthers l1.id) (.lSymbs l2.id) ::
      if rest = .eorule then []
      else coOthers (.alternation l2 rule rest) ++
        [setunion (.lOthers l1.id) (.lOthers l2.id)]
  | _ => []

/-- The additions of `co_dirsymb(setp, p)`; `s` is the first alternative of the list. -/
def coDirsymb (flags : Flags) (setp : Slot) (s : Option Rule) : Rule → List (Update Slot Nat)
  | .eorule => []
  | .action next | .nonterm _ _ _ next | .terminal _ next => coDirsymb flags setp s next
  | .term q rule next =>
    coDirsymb flags (.tFollow q.id) none rule ++ coDirsymb flags setp s next
  | .alternation l rule next =>
    coDirsymb flags setp none rule ++
      (if empty flags rule then [setunion (.lSymbs l.id) setp] else []) ++
      if next = .eorule then coOthers (s.getD (.alternation l rule next))
      else coDirsymb flags setp (some (s.getD (.alternation l rule next))) next

def Grammar.range (g : Grammar) : List Nat := List.range g.nonterms.length

def firsts (g : Grammar) (flags : Flags) : List (List (Update Slot Nat)) :=
  g.range.map fun n => first flags false (.nFirst n) false (g.rule n)

def follows (g : Grammar) (flags : Flags) : List (List (Update Slot Nat)) :=
  g.range.map fun n => follow flags (.nFollow n) (g.rule n)

def dirsymbs (g : Grammar) (flags : Flags) : List (Update Slot Nat) :=
  g.range.flatMap fun n => coDirsymb flags (.nFollow n) none (g.rule n)

/-- The part of `do_compute` that `check.c` relies on. -/
def doCompute (fuel : Nat) (g : Grammar) : Option (Flags × Sets) := do
  let flags ← settle (g.range.map (nempty g)) fuel fun _ => false
  let sets ← settle ((firsts g flags).map run) fuel fun _ => ∅
  let sets := (run (g.start.map fun n => putin (.nFollow n) eofile) sets).1
  let sets ← settle ((follows g flags).map run) fuel sets
  some (flags, (run (dirsymbs g flags) sets).1)

end AckFormal.LLgen.Compute

/-!
## Conflicts

`check.c`: where the sets that decide what to do are not disjoint, an error is given,
unless the grammar has a conflict resolver there.  What is printed for the user
apart from errors is left out.
-/

namespace AckFormal.LLgen.Check

open LLgen.Compute Lib.Inclusion

inductive Message where
  | parameterCount (n : Nat)
  | noSymbols
  | emptyTerm
  | repetitionConflict
  | alternationConflict
  | recursion (n : Nat)
  | neverChosen
  deriving DecidableEq

structure Complaint where
  lineno : Nat
  message : Message
  deriving DecidableEq

def setminus (a : Slot) (set : Finset Nat) (s : Sets) : Sets :=
  Function.update s a (s a \ set)

/-- The alternatives that are left are not chosen on the symbols of the set. -/
def propagate (set : Finset Nat) : Rule → Sets → Sets
  | .alternation l _ next, s => propagate set next (setminus (.lSymbs l.id) set s)
  | _, s => s

def checkTerm (flags : Flags) (q : Term) (rule : Rule) (s : Sets) : List Complaint :=
  if q.kind = .fixed then
    []
  else
    (if s (.tFirst q.id) = ∅ then [⟨q.lineno, .noSymbols⟩] else []) ++
      (if empty flags rule then [⟨q.lineno, .emptyTerm⟩] else []) ++
      if s (.tFirst q.id) ∩ s (.tFollow q.id) ≠ ∅ && !q.resolver then
        [⟨q.lineno, .repetitionConflict⟩]
      else []

def checkLink (l : Link) (s : Sets) : List Complaint :=
  if s (.lSymbs l.id) ∩ s (.lOthers l.id) ≠ ∅ && !(l.cond || l.prefering || l.avoiding) then
    [⟨l.lineno, .alternationConflict⟩]
  else []

def check (g : Grammar) (flags : Flags) : Rule → Sets → Sets × List Complaint
  | .eorule, s => (s, [])
  | .action next, s | .terminal _ next, s => check g flags next s
  | .nonterm n npar lineno next, s =>
    let wrong := npar ≠ (g.nonterms[n]?.map Nont.nparams).getD 0
    let later := check g flags next s
    (later.1, (if wrong then [⟨lineno, .parameterCount n⟩] else []) ++ later.2)
  | .term q rule next, s =>
    let inner := check g flags rule s
    let later := check g flags next inner.1
    (later.1, inner.2 ++ checkTerm flags q rule inner.1 ++ later.2)
  | .alternation l rule next, s =>
    let left := if l.prefering then propagate (s (.lSymbs l.id)) next s else s
    let inner := check g flags rule left
    let later := check g flags next inner.1
    (later.1, checkLink l s ++ inner.2 ++ later.2)

def resolve : Rule → Sets → Sets × List Complaint
  | .eorule, s => (s, [])
  | .action next, s | .terminal _ next, s | .nonterm _ _ _ next, s => resolve next s
  | .term _ rule next, s =>
    let inner := resolve rule s
    let later := resolve next inner.1
    (later.1, inner.2 ++ later.2)
  | .alternation l rule next, s =>
    let left := if l.avoiding then setminus (.lSymbs l.id) (s (.lOthers l.id)) s else s
    let inner := resolve rule left
    let later := resolve next inner.1
    (later.1, (if left (.lSymbs l.id) = ∅ then [⟨l.lineno, .neverChosen⟩] else []) ++
      inner.2 ++ later.2)

def checks (g : Grammar) (flags : Flags) : List Nat → Sets → Sets × List Complaint
  | [], s => (s, [])
  | n :: ns, s =>
    let this := check g flags (g.rule n) s
    let later := checks g flags ns this.1
    (later.1, this.2 ++ later.2)

def resolves (g : Grammar) : List Nat → Sets → Sets × List Complaint
  | [], s => (s, [])
  | n :: ns, s =>
    let recursion := match g.nonterms[n]? with
      | some p => if p.recursive then [⟨p.lineno, .recursion n⟩] else []
      | none => []
    let this := resolve (g.rule n) s
    let later := resolves g ns this.1
    (later.1, recursion ++ this.2 ++ later.2)

def conflchecks (g : Grammar) (flags : Flags) (s : Sets) : Sets × List Complaint :=
  let checked := checks g flags g.files.flatten s
  let resolved := resolves g g.files.flatten checked.1
  (resolved.1, checked.2 ++ resolved.2)

/-! ### Grammars without conflict resolvers -/

def unresolved : Rule → Bool
  | .eorule => true
  | .action next | .terminal _ next | .nonterm _ _ _ next => unresolved next
  | .term q rule next => !q.resolver && unresolved rule && unresolved next
  | .alternation l rule next =>
    !(l.cond || l.prefering || l.avoiding) && unresolved rule && unresolved next

def Disjoints (flags : Flags) (s : Sets) : Rule → Prop
  | .eorule => True
  | .action next | .terminal _ next | .nonterm _ _ _ next => Disjoints flags s next
  | .term q rule next =>
    (q.kind ≠ .fixed → empty flags rule = false ∧
      Disjoint (s (.tFirst q.id)) (s (.tFollow q.id))) ∧
    Disjoints flags s rule ∧ Disjoints flags s next
  | .alternation l rule next =>
    Disjoint (s (.lSymbs l.id)) (s (.lOthers l.id)) ∧ Disjoints flags s rule ∧
      Disjoints flags s next

theorem check_sets (g : Grammar) (flags : Flags) {p : Rule} (plain : unresolved p = true)
    (s : Sets) : (check g flags p s).1 = s := by
  induction p generalizing s with
  | eorule => rfl
  | action next ih | terminal t next ih | nonterm n npar lineno next ih => exact ih plain s
  | term q rule next ihRule ihNext =>
    simp only [unresolved, Bool.and_eq_true] at plain
    change (check g flags next (check g flags rule s).1).1 = s
    rw [ihRule plain.1.2, ihNext plain.2]
  | alternation l rule next ihRule ihNext =>
    simp only [unresolved, Bool.and_eq_true, Bool.not_eq_true', Bool.or_eq_false_iff] at plain
    simp only [check, plain.1.1.1.2, Bool.false_eq_true, if_false]
    rw [ihRule plain.1.2, ihNext plain.2]

/-- Where there is no complaint, the sets are disjoint. -/
theorem check_disjoints {g : Grammar} {flags : Flags} {p : Rule} (plain : unresolved p = true)
    {s : Sets} (quiet : (check g flags p s).2 = []) : Disjoints flags s p := by
  induction p with
  | eorule => trivial
  | action next ih | terminal t next ih => exact ih plain quiet
  | nonterm n npar lineno next ih => exact ih plain (List.append_eq_nil_iff.mp quiet).2
  | term q rule next ihRule ihNext =>
    simp only [unresolved, Bool.and_eq_true] at plain
    simp only [check, List.append_eq_nil_iff, check_sets g flags plain.1.2] at quiet
    refine ⟨fun varying => ?_, ihRule plain.1.2 quiet.1.1, ihNext plain.2 quiet.2⟩
    have term := quiet.1.2
    rw [checkTerm, if_neg varying] at term
    simp only [List.append_eq_nil_iff] at term
    refine ⟨by simpa using term.1.2, ?_⟩
    simpa [plain.1.1, Finset.disjoint_iff_inter_eq_empty] using term.2
  | alternation l rule next ihRule ihNext =>
    simp only [unresolved, Bool.and_eq_true, Bool.not_eq_true'] at plain
    have plain' := plain.1.1
    simp only [Bool.or_eq_false_iff] at plain'
    simp only [check, List.append_eq_nil_iff, plain'.1.2, Bool.false_eq_true, if_false,
      check_sets g flags plain.1.2] at quiet
    refine ⟨?_, ihRule plain.1.2 quiet.1.2, ihNext plain.2 quiet.2⟩
    have link := quiet.1.1
    rw [checkLink, plain.1.1] at link
    simpa [Finset.disjoint_iff_inter_eq_empty] using link

/-- Without complaints the sets of all rules are disjoint. -/
theorem conflchecks_disjoints {g : Grammar} {flags : Flags} {s : Sets}
    (plain : ∀ p ∈ g.nonterms, unresolved p.rule = true)
    (quiet : (conflchecks g flags s).2 = []) {n : Nat} (member : n < g.nonterms.length) :
    Disjoints flags s (g.rule n) := by
  have plainRule : ∀ n, unresolved (g.rule n) = true := by
    intro n
    unfold Grammar.rule
    cases found : g.nonterms[n]? with
    | none => rfl
    | some p => exact plain p (List.mem_of_getElem? found)
  have each : ∀ ns, (checks g flags ns s).2 = [] → ∀ n ∈ ns, Disjoints flags s (g.rule n) := by
    intro ns
    induction ns with
    | nil => exact fun _ n inside => absurd inside List.not_mem_nil
    | cons m ns ih =>
      intro quiet n inside
      simp only [checks, List.append_eq_nil_iff, check_sets g flags (plainRule m)] at quiet
      rcases List.mem_cons.mp inside with rfl | later
      · exact check_disjoints (plainRule n) quiet.1
      · exact ih quiet.2 n later
  exact each _ (List.append_eq_nil_iff.mp quiet).1 n (g.listed n member)

end AckFormal.LLgen.Check
