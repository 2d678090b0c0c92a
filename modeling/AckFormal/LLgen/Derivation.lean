import AckFormal.LLgen.Compute

/-!
# Sentential forms

What a grammar means: a form is rewritten at any of its symbols.  The choices of a
parser are visible as symbols of their own, a list of alternatives of which one is
taken, and a repetition that is continued or stopped.
-/

namespace AckFormal.LLgen.Derivation

open LLgen.Compute

/-- A symbol of a sentential form.  In a repetition `left` is how often it may still be
continued, if there is a limit. -/
inductive Sym where
  | token (t : Nat)
  | nonterm (n : Nat)
  | term (q : Term) (rule : Rule)
  | loop (q : Term) (rule : Rule) (left : Option Nat)
  | choice (alts : Rule)

def content : Rule → List Sym
  | .eorule => []
  | .action next => content next
  | .nonterm n _ _ next => .nonterm n :: content next
  | .terminal t next => .token t :: content next
  | .term q rule next => .term q rule :: content next
  | .alternation l rule next => [.choice (.alternation l rule next)]

def limit (q : Term) : Option Nat := if q.num = 0 then none else some q.num

def less (left : Option Nat) : Option Nat := left.map Nat.pred

def copies (rule : Rule) : Nat → List Sym
  | 0 => []
  | n + 1 => content rule ++ copies rule n

inductive Expands (g : Grammar) : Sym → List Sym → Prop where
  | nonterm {n : Nat} (declared : n < g.nonterms.length) :
      Expands g (.nonterm n) (content (g.rule n))
  | fixed {q : Term} (kind : q.kind = .fixed) (rule : Rule) :
      Expands g (.term q rule) (copies rule (max q.num 1))
  | star {q : Term} (kind : q.kind = .star) (rule : Rule) :
      Expands g (.term q rule) [.loop q rule (limit q)]
  | plus {q : Term} (kind : q.kind = .plus) (rule : Rule) :
      Expands g (.term q rule) (content rule ++ [.loop q rule (less (limit q))])
  | opt {q : Term} (kind : q.kind = .opt) (rule : Rule) :
      Expands g (.term q rule) [.loop q rule (some 1)]
  | continue (q : Term) (rule : Rule) {left : Option Nat} (more : left ≠ some 0) :
      Expands g (.loop q rule left) (content rule ++ [.loop q rule (less left)])
  | stop (q : Term) (rule : Rule) (left : Option Nat) : Expands g (.loop q rule left) []
  | choose {alts : Rule} {l : Link} {rule : Rule} (among : (l, rule) ∈ alts.alternatives) :
      Expands g (.choice alts) (content rule)

inductive Step (g : Grammar) : List Sym → List Sym → Prop where
  | replace (before : List Sym) {x : Sym} {w : List Sym} (expands : Expands g x w)
      (after : List Sym) : Step g (before ++ x :: after) (before ++ w ++ after)

abbrev Derives (g : Grammar) : List Sym → List Sym → Prop := Relation.ReflTransGen (Step g)

def Leads (g : Grammar) (form : List Sym) (a : Nat) : Prop :=
  ∃ rest, Derives g form (.token a :: rest)

def Sentential (g : Grammar) (form : List Sym) : Prop :=
  ∃ n ∈ g.start, Derives g [.nonterm n, .token eofile] form

/-- Wherever one of several alternatives is to be taken, at most one can lead to the next
terminal, and that is the one in whose set the terminal is. -/
def AlternativeDecided (g : Grammar) (s : Sets) : Prop :=
  ∀ before alts after, Sentential g (before ++ .choice alts :: after) →
    ∀ l rule, (l, rule) ∈ alts.alternatives → ∀ a, Leads g (content rule ++ after) a →
      a ∈ s (.lSymbs l.id) ∧
      ∀ l' rule', (l', rule') ∈ alts.alternatives →
        a ∈ s (.lSymbs l'.id) ∨ Leads g (content rule' ++ after) a → l' = l

/-- Wherever a repetition is to be continued or stopped, the next terminal tells which. -/
def RepetitionDecided (g : Grammar) (s : Sets) : Prop :=
  ∀ before q rule left after, Sentential g (before ++ .loop q rule left :: after) →
    left ≠ some 0 → ∀ a,
      (Leads g (content rule ++ .loop q rule (less left) :: after) a →
        a ∈ s (.tFirst q.id) ∧ a ∉ s (.tFollow q.id) ∧ ¬ Leads g after a) ∧
      (Leads g after a → a ∈ s (.tFollow q.id) ∧ a ∉ s (.tFirst q.id) ∧
        ¬ Leads g (content rule ++ .loop q rule (less left) :: after) a)

def Decided (g : Grammar) (s : Sets) : Prop := AlternativeDecided g s ∧ RepetitionDecided g s

/-- In a list of alternatives one produces empty while another one can start with a terminal;
or this is so for the list that an alternative which produces empty consists of. -/
inductive Ambiguous (g : Grammar) : Rule → Prop where
  | here {p : Rule} {l l' : Link} {rule rule' : Rule} {a : Nat}
      (vanishing : (l, rule) ∈ p.alternatives) (nothing : Derives g (content rule) [])
      (other : (l', rule') ∈ p.alternatives) (different : l' ≠ l)
      (something : Leads g (content rule') a) : Ambiguous g p
  | inside {p : Rule} {l : Link} {rule : Rule} (vanishing : (l, rule) ∈ p.alternatives)
      (nothing : Derives g (content rule) []) (inner : Ambiguous g rule) : Ambiguous g p

/-! ### Derivations in a context -/

variable {g : Grammar} {form form' : List Sym} {a : Nat}

theorem Step.context (step : Step g form form') (before after : List Sym) :
    Step g (before ++ form ++ after) (before ++ form' ++ after) := by
  obtain ⟨left, expands, right⟩ := step
  have whole := Step.replace (before ++ left) expands (right ++ after)
  simpa only [List.append_assoc, List.cons_append] using whole

theorem Derives.context (derives : Derives g form form') (before after : List Sym) :
    Derives g (before ++ form ++ after) (before ++ form' ++ after) := by
  induction derives with
  | refl => exact .refl
  | tail _ step ih => exact ih.tail (step.context before after)

theorem Derives.append {other other' : List Sym} (first : Derives g form form')
    (second : Derives g other other') : Derives g (form ++ other) (form' ++ other') := by
  have left := first.context [] other
  have right := second.context form' []
  simp only [List.append_nil] at left right
  exact left.trans right

theorem Derives.expand {x : Sym} {w : List Sym} (expands : Expands g x w) (before after : List Sym) :
    Derives g (before ++ x :: after) (before ++ w ++ after) :=
  .single (.replace before expands after)

theorem Leads.of_derives (derives : Derives g form form') (leads : Leads g form' a) :
    Leads g form a := by
  obtain ⟨rest, further⟩ := leads
  exact ⟨rest, derives.trans further⟩

theorem Leads.append (leads : Leads g form a) (after : List Sym) : Leads g (form ++ after) a := by
  obtain ⟨rest, derives⟩ := leads
  have whole := derives.context [] after
  exact ⟨rest ++ after, by simpa using whole⟩

theorem Leads.skip (form : List Sym) {after : List Sym} (nothing : Derives g form [])
    (leads : Leads g after a) : Leads g (form ++ after) a :=
  Leads.of_derives (nothing.append .refl) leads

theorem Sentential.derives (sentential : Sentential g form) (derives : Derives g form form') :
    Sentential g form' := by
  obtain ⟨n, start, before⟩ := sentential
  exact ⟨n, start, before.trans derives⟩

end AckFormal.LLgen.Derivation
