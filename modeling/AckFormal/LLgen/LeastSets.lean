import AckFormal.LLgen.Conflicts

/-!
# The sets are the least ones

What the loops of `do_compute` find is what derivations tell: the nonterminals that
produce empty, the terminals that a nonterminal can start with, and those that can come
after it.  The loop for FOLLOW goes through all nonterminals, also through those that
no start symbol leads to, so that their rules count as well.
-/

namespace AckFormal.LLgen.Solved

open Lib.Settle Lib.Inclusion LLgen.Compute LLgen.Derivation
open List (append_assoc append_nil mem_append mem_append_left mem_append_right mem_cons_self
  mem_map mem_singleton not_mem_nil)

variable {g : Grammar} {flags : Flags} {s : Sets}

/-! ### What can come after a nonterminal -/

/-- A nonterminal by itself; `EOFILE` stands after a start symbol. -/
def root (g : Grammar) (m : Nat) : List Sym :=
  .nonterm m :: if m ∈ g.start then [.token eofile] else []

def Rooted (g : Grammar) (form : List Sym) : Prop :=
  ∃ m < g.nonterms.length, Derives g (root g m) form

def Reachable (g : Grammar) (m : Nat) : Prop :=
  ∃ before after, Sentential g (before ++ .nonterm m :: after)

/-- The terminal can come after the nonterminal in a form derived from a start symbol. -/
def ComesAfter (g : Grammar) (n a : Nat) : Prop :=
  ∃ before rest, Sentential g (before ++ .nonterm n :: .token a :: rest)

/-- It can do so in a form derived from a nonterminal that no start symbol leads to. -/
def ComesAfterUnreachable (g : Grammar) (n a : Nat) : Prop :=
  ∃ m < g.nonterms.length, ¬ Reachable g m ∧
    ∃ before rest, Derives g [.nonterm m] (before ++ .nonterm n :: .token a :: rest)

variable {form form' w w' : List Sym} {n a fuel : Nat} {after after' : Finset Nat} {x : Sym}
  {p rule : Rule} {q : Term} {m : Set Nat}

theorem Rooted.derives (rooted : Rooted g form) (derives : Derives g form form') :
    Rooted g form' := by
  obtain ⟨m, declared, before⟩ := rooted
  exact ⟨m, declared, before.trans derives⟩

theorem Rooted.replace {before after : List Sym} (rooted : Rooted g (before ++ w ++ after))
    (derives : Derives g w w') : Rooted g (before ++ w' ++ after) :=
  rooted.derives (derives.context before after)

theorem Sentential.rooted (sentential : Sentential g form) : Rooted g form := by
  obtain ⟨m, start, derives⟩ := sentential
  refine ⟨m, g.started m start, ?_⟩
  rwa [root, if_pos start]

theorem comesAfter_or_unreachable
    (after : ∃ before rest, Rooted g (before ++ .nonterm n :: .token a :: rest)) :
    ComesAfter g n a ∨ ComesAfterUnreachable g n a := by
  obtain ⟨before, rest, m, declared, derives⟩ := after
  by_cases start : m ∈ g.start
  · rw [root, if_pos start] at derives
    exact .inl ⟨before, rest, m, start, derives⟩
  · rw [root, if_neg start] at derives
    by_cases reachable : Reachable g m
    · obtain ⟨left, right, sentential⟩ := reachable
      have inside := derives.context left right
      refine .inl ⟨left ++ before, rest ++ right, ?_⟩
      simp only [append_assoc] at inside ⊢
      exact sentential.derives inside
    · exact .inr ⟨m, declared, reachable, before, rest, derives⟩

theorem rooted_of_comesAfter (after : ComesAfter g n a ∨ ComesAfterUnreachable g n a) :
    ∃ before rest, Rooted g (before ++ .nonterm n :: .token a :: rest) := by
  rcases after with ⟨before, rest, sentential⟩ | ⟨m, declared, unreachable, before, rest, derives⟩
  · exact ⟨before, rest, Sentential.rooted sentential⟩
  · refine ⟨before, rest, m, declared, ?_⟩
    have alone : m ∉ g.start :=
      fun start => unreachable ⟨[], [.token eofile], m, start, .refl⟩
    rwa [root, if_neg alone]

/-! ### Nothing is missing -/

structure TermFollowed (flags : Flags) (s : Sets) (q : Term) (rule : Rule) : Prop where
  first : firstSet flags (fun n => s (.nFirst n)) rule ⊆ s (.tFirst q.id)
  covered : FirstCovered flags (fun n => s (.nFirst n)) s rule
  again : repeats q = true → FollowCovered flags s (s (.tFirst q.id)) rule
  followed : FollowCovered flags s (s (.tFollow q.id)) rule

/-- The FOLLOW sets are right for a symbol that `after` can come after. -/
def SymFollowed (flags : Flags) (s : Sets) (after : Finset Nat) : Sym → Prop
  | .token _ => True
  | .nonterm n => after ⊆ s (.nFollow n)
  | .term q rule => TermFollowed flags s q rule ∧ after ⊆ s (.tFollow q.id)
  | .loop q rule left =>
    TermFollowed flags s q rule ∧ after ⊆ s (.tFollow q.id) ∧
      (repeats q = false → left = some 1 ∨ left = some 0)
  | .choice alts =>
    FirstCovered flags (fun n => s (.nFirst n)) s alts ∧ FollowCovered flags s after alts

def FormFollowed (flags : Flags) (s : Sets) (after : Finset Nat) : List Sym → Prop
  | [] => True
  | x :: form => SymFollowed flags s (nexts flags s form after) x ∧ FormFollowed flags s after form

theorem SymFollowed.mono (fewer : after ⊆ after') (followed : SymFollowed flags s after' x) :
    SymFollowed flags s after x := by
  cases x with
  | token t => trivial
  | nonterm n => exact fewer.trans followed
  | term q rule => exact ⟨followed.1, fewer.trans followed.2⟩
  | loop q rule left => exact ⟨followed.1, fewer.trans followed.2.1, followed.2.2⟩
  | choice alts => exact ⟨followed.1, followed.2.mono fewer⟩

theorem FormFollowed.mono (fewer : after ⊆ after') (followed : FormFollowed flags s after' form) :
    FormFollowed flags s after form := by
  induction form with
  | nil => trivial
  | cons x form ih => exact ⟨followed.1.mono (nexts_mono fewer), ih followed.2⟩

theorem formFollowed_append :
    FormFollowed flags s after (form ++ form') ↔
      FormFollowed flags s (nexts flags s form' after) form ∧ FormFollowed flags s after form' := by
  induction form with
  | nil => simp [FormFollowed]
  | cons x form ih =>
    rw [List.cons_append, FormFollowed, FormFollowed, ih, nexts_append, and_assoc]

theorem formFollowed_content (covered : FirstCovered flags (fun n => s (.nFirst n)) s p)
    (followed : FollowCovered flags s after p) : FormFollowed flags s after (content p) := by
  induction p with
  | eorule => trivial
  | action next ih => exact ih (covered.of_same rfl rfl) followed
  | terminal t next ih => exact ⟨trivial, ih (covered.of_same rfl rfl) followed⟩
  | nonterm n npar lineno next ih =>
    refine ⟨?_, ih (covered.of_same rfl rfl) followed.2⟩
    rw [nexts_content]
    exact followed.1
  | term q rule next _ ih =>
    refine ⟨⟨⟨covered.terms q rule mem_cons_self, covered.inner, followed.2.1,
      followed.2.2.1⟩, ?_⟩, ih covered.later followed.2.2.2⟩
    rw [nexts_content]
    exact followed.1
  | alternation l rule next _ _ =>
    refine ⟨⟨covered, ?_⟩, trivial⟩
    simpa [nexts, formFirst, formEmpty] using followed

theorem TermFollowed.content_again (term : TermFollowed flags s q rule) (again : repeats q = true)
    (inside : after ⊆ s (.tFollow q.id))
    (follows : after' ⊆ firstSet flags (fun n => s (.nFirst n)) rule ∪ after) :
    FormFollowed flags s after' (content rule) :=
  formFollowed_content term.covered
    ((((term.again again).mono term.first).union (term.followed.mono inside)).mono follows)

theorem TermFollowed.content_loop (term : TermFollowed flags s q rule) {left : Option Nat}
    (inside : after ⊆ s (.tFollow q.id)) (single : repeats q = false → left = some 0) :
    FormFollowed flags s after (content rule ++ [.loop q rule left]) := by
  refine formFollowed_append.mpr ⟨?_, ⟨term, by simpa [nexts, formFirst, formEmpty] using inside,
    fun once => .inr (single once)⟩, trivial⟩
  cases again : repeats q with
  | true => exact term.content_again again inside nexts_loop
  | false =>
    rw [single again]
    refine (formFollowed_content term.covered term.followed).mono ?_
    simpa [nexts, formFirst, formEmpty, Sym.first, Sym.empty] using inside

theorem FirstCovered.alternative {firsts : Nat → Finset Nat} {l : Link}
    (covered : FirstCovered flags firsts s p) (among : (l, rule) ∈ p.alternatives) :
    FirstCovered flags firsts s rule := by
  induction p with
  | alternation m r next _ ih =>
    rcases List.mem_cons.mp among with same | later
    · cases same
      exact covered.innerLink
    · exact ih covered.nextLink later
  | _ => exact absurd among not_mem_nil

/-- What a symbol is replaced by has the right FOLLOW sets. -/
theorem formFollowed_expands (solved : FollowSolved g flags s) (expands : Expands g x w)
    (followed : SymFollowed flags s after x) : FormFollowed flags s after w := by
  cases expands with
  | nonterm declared =>
    exact formFollowed_content (solved.covered _ declared)
      ((solved.followed _ declared).mono followed)
  | @fixed q kind rule =>
    cases again : repeats q with
    | true =>
      generalize max q.num 1 = count
      induction count with
      | zero => trivial
      | succ count ih =>
        exact formFollowed_append.mpr ⟨followed.1.content_again again followed.2 nexts_copies, ih⟩
    | false =>
      have none : q.num = 0 := by
        simp only [repeats, Bool.or_eq_false_iff, decide_eq_false_iff_not, not_not] at again
        exact again.2
      rw [none, show max 0 1 = 0 + 1 from rfl, copies, copies, append_nil]
      exact formFollowed_content followed.1.covered (followed.1.followed.mono followed.2)
  | @star q kind rule =>
    refine ⟨⟨followed.1, ?_, fun once => ?_⟩, trivial⟩
    · simpa [nexts, formFirst, formEmpty] using followed.2
    · simp [repeats, kind] at once
  | @plus q kind rule =>
    refine followed.1.content_loop followed.2 fun once => ?_
    simp [repeats, kind] at once
  | @opt q kind rule =>
    refine ⟨⟨followed.1, ?_, fun _ => .inl rfl⟩, trivial⟩
    simpa [nexts, formFirst, formEmpty] using followed.2
  | @«continue» q rule left more =>
    refine followed.1.content_loop followed.2.1 fun once => ?_
    rcases followed.2.2 once with one | zero
    · rw [one]
      rfl
    · exact absurd zero more
  | stop q rule left => trivial
  | choose among =>
    exact formFollowed_content (followed.1.alternative among) (followed.2.alternative among)

section

variable (covering : Covering g flags fun n => s (.nFirst n)) (solved : FollowSolved g flags s)
include covering solved

theorem formFollowed_step (step : Step g form form')
    (followed : FormFollowed flags s ∅ form) : FormFollowed flags s ∅ form' := by
  obtain ⟨before, expands, after⟩ := step
  rename_i x w
  obtain ⟨left, symbol, right⟩ := formFollowed_append.mp followed
  rw [append_assoc]
  refine formFollowed_append.mpr ⟨left.mono ?_,
    formFollowed_append.mpr ⟨formFollowed_expands solved expands symbol, right⟩⟩
  obtain ⟨nothing, starts⟩ := covering.expands expands
  rw [nexts_append]
  change _ ⊆ nexts flags s ([x] ++ after) ∅
  rw [nexts_append]
  refine Finset.union_subset_union ?_ ?_
  · exact starts.trans (by simp [formFirst])
  · split
    next vanishes => rw [if_pos (by simpa [formEmpty] using nothing vanishes)]
    next => exact Finset.empty_subset _

/-- Whatever comes after a nonterminal is in its FOLLOW set. -/
theorem follow_complete {before rest : List Sym}
    (rooted : Rooted g (before ++ .nonterm n :: .token a :: rest)) : a ∈ s (.nFollow n) := by
  have run : ∀ form, Rooted g form → FormFollowed flags s ∅ form := by
    rintro form ⟨m, declared, derives⟩
    induction derives with
    | refl =>
      unfold root
      split
      next start =>
        refine ⟨?_, trivial, trivial⟩
        exact Finset.singleton_subset_iff.mpr (solved.started m start)
      next => exact ⟨by simp [SymFollowed, nexts, formFirst], trivial⟩
    | tail _ step ih => exact formFollowed_step covering solved step ih
  obtain ⟨-, follows, -⟩ := formFollowed_append.mp (run _ rooted)
  refine follows ?_
  simp [nexts, formFirst, Sym.first]

end

/-! ### Nothing is too much -/

/-- The count is none or more than one, and no count stands with `?`. -/
def Counted (q : Term) : Prop := q.num ≠ 1 ∧ (q.kind = .opt → q.num = 0)

instance (q : Term) : Decidable (Counted q) := inferInstanceAs (Decidable (_ ∧ _))

/-- The symbols occur in a form, and each terminal of `m` can come after them. -/
def Context (g : Grammar) (w : List Sym) (m : Set Nat) : Prop :=
  (∃ before after, Rooted g (before ++ w ++ after)) ∧
    ∀ a ∈ m, ∃ before rest, Rooted g (before ++ w ++ .token a :: rest)

def Occurs (g : Grammar) (p : Rule) (m : Set Nat) : Prop :=
  (p.sequence = true → Context g (content p) m) ∧
    (p.choices = true → ∀ l rule, (l, rule) ∈ p.alternatives → Context g (content rule) m)

theorem Context.last (context : Context g w m) (left : List Sym)
    (derives : Derives g w (left ++ w')) : Context g w' m := by
  obtain ⟨⟨before, after, rooted⟩, each⟩ := context
  constructor
  · refine ⟨before ++ left, after, ?_⟩
    have inside := rooted.replace derives
    rwa [← append_assoc before] at inside
  · intro a member
    obtain ⟨before, rest, rooted⟩ := each a member
    refine ⟨before ++ left, rest, ?_⟩
    have inside := rooted.replace derives
    rwa [← append_assoc before] at inside

theorem Context.rest (context : Context g (x :: w) m) : Context g w m :=
  context.last [x] .refl

theorem Context.leads (context : Context g (w ++ w') m) (leads : Leads g w' a) :
    ∃ before rest, Rooted g (before ++ w ++ .token a :: rest) := by
  obtain ⟨⟨before, after, rooted⟩, -⟩ := context
  obtain ⟨rest, derives⟩ := leads
  rw [← append_assoc before] at rooted
  refine ⟨before, rest ++ after, ?_⟩
  have inside := rooted.replace derives
  rwa [append_assoc, List.cons_append] at inside

theorem Context.vanish (context : Context g (w ++ w') m) (nothing : Derives g w' [])
    (member : a ∈ m) : ∃ before rest, Rooted g (before ++ w ++ .token a :: rest) := by
  obtain ⟨before, rest, rooted⟩ := context.2 a member
  rw [← append_assoc before] at rooted
  refine ⟨before, rest, ?_⟩
  have inside := rooted.replace nothing
  rwa [append_nil] at inside

theorem Occurs.of_content (context : Context g (content p) m) : Occurs g p m := by
  refine ⟨fun _ => context, fun _ l rule among => ?_⟩
  cases p with
  | alternation l' rule' next =>
    have chosen := Derives.expand (g := g) (.choose among) [] []
    simp only [append_nil] at chosen
    exact context.last [] chosen
  | _ => exact absurd among not_mem_nil

theorem Derives.stopped (form : List Sym) (q : Term) (rule : Rule) (left : Option Nat) :
    Derives g (form ++ [.loop q rule left]) form := by
  have stop := Derives.expand (g := g) (.stop q rule left) form []
  simpa only [append_nil] using stop

theorem Derives.again (form : List Sym) (q : Term) (rule : Rule) {left : Option Nat}
    (more : left ≠ some 0) :
    Derives g (form ++ [.loop q rule left]) (form ++ content rule ++ [.loop q rule (less left)]) := by
  have opened := Derives.expand (g := g) (.continue q rule more) form []
  simpa only [append_nil, append_assoc] using opened

theorem Derives.opened (expands : Expands g x w) : Derives g [x] w := by
  have opened := Derives.expand expands [] []
  simpa only [List.nil_append, append_nil] using opened

theorem limit_more (q : Term) : limit q ≠ some 0 := by
  unfold limit
  split
  next => simp
  next some => exact fun none => some (Option.some.inj none)

theorem less_limit_more (several : q.num ≠ 1) : less (limit q) ≠ some 0 := by
  unfold limit less
  split
  next => simp
  next some =>
    intro none
    have last : q.num - 1 = 0 := Option.some.inj none
    omega

theorem copies_last (rule : Rule) (count some : Nat) :
    ∃ before, copies rule (count + some) = before ++ copies rule some := by
  induction count with
  | zero => exact ⟨[], by rw [Nat.zero_add, List.nil_append]⟩
  | succ count ih =>
    obtain ⟨before, same⟩ := ih
    exact ⟨content rule ++ before, by
      rw [Nat.add_right_comm, copies, same, append_assoc]⟩

theorem Derives.last_copy (q : Term) (rule : Rule) :
    ∃ before, Derives g [.term q rule] (before ++ content rule) := by
  cases kind : q.kind with
  | fixed =>
    obtain ⟨before, same⟩ := copies_last rule (max q.num 1 - 1) 1
    rw [show max q.num 1 - 1 + 1 = max q.num 1 by omega, copies, copies, append_nil] at same
    exact ⟨before, same ▸ Derives.opened (.fixed kind rule)⟩
  | star =>
    have once := Derives.again (g := g) [] q rule (limit_more q)
    exact ⟨[], (Derives.opened (.star kind rule)).trans (once.trans (Derives.stopped _ q rule _))⟩
  | plus => exact ⟨[], (Derives.opened (.plus kind rule)).trans (Derives.stopped _ q rule _)⟩
  | opt =>
    have once := Derives.again (g := g) [] q rule (show some 1 ≠ some 0 by simp)
    exact ⟨[], (Derives.opened (.opt kind rule)).trans (once.trans (Derives.stopped _ q rule _))⟩

/-- A term that may be followed by itself ends with its rule twice. -/
theorem Derives.last_copies (rule : Rule) (again : repeats q = true) (counted : Counted q) :
    ∃ before, Derives g [.term q rule] (before ++ (content rule ++ content rule)) := by
  obtain ⟨several, plain⟩ := counted
  cases kind : q.kind with
  | fixed =>
    have many : 2 ≤ q.num := by
      simp only [repeats, kind, Bool.or_eq_true, decide_eq_true_eq] at again
      have counts : q.num ≠ 0 := again.resolve_left (by simp)
      omega
    obtain ⟨before, same⟩ := copies_last rule (max q.num 1 - 2) 2
    rw [show max q.num 1 - 2 + 2 = max q.num 1 by omega, copies, copies, copies,
      append_nil] at same
    exact ⟨before, same ▸ Derives.opened (.fixed kind rule)⟩
  | star =>
    have first := Derives.again (g := g) [] q rule (limit_more q)
    have second := Derives.again (g := g) (content rule) q rule (less_limit_more several)
    exact ⟨[], (Derives.opened (.star kind rule)).trans
      (first.trans (second.trans (Derives.stopped _ q rule _)))⟩
  | plus =>
    have second := Derives.again (g := g) (content rule) q rule (less_limit_more several)
    exact ⟨[], (Derives.opened (.plus kind rule)).trans (second.trans (Derives.stopped _ q rule _))⟩
  | opt =>
    simp [repeats, kind, plain kind] at again

def followMeaning (g : Grammar) : Slot → Set Nat
  | .nFollow n => {a | ∃ before rest, Rooted g (before ++ [.nonterm n] ++ .token a :: rest)}
  | .tFollow id => {a | ∀ q rule, (q, rule) ∈ allTerms g → q.id = id →
      ∃ before rest, Rooted g (before ++ content rule ++ .token a :: rest)}
  | i => meaning g i

theorem followMeaning_first : FirstMeaning g (followMeaning g) :=
  ⟨fun _ => rfl, fun _ => rfl, fun _ => rfl⟩

/-- With the flag there are no more additions to the set. -/
theorem first_less (flags : Flags) (setp : Slot) (p : Rule) :
    ∀ u ∈ first flags true setp false p, u ∈ first flags false setp false p := by
  induction p with
  | eorule => exact fun u member => member
  | action next ih => exact ih
  | terminal t next ih =>
    intro u member
    exact mem_append_left _ member
  | nonterm n npar lineno next ih =>
    intro u member
    rcases mem_append.mp member with this | later
    · exact mem_append_left _ this
    · refine mem_append_right _ ?_
      split at later
      next nothing =>
        rw [if_pos nothing]
        exact ih u later
      next => exact absurd later not_mem_nil
  | term q rule next _ ih =>
    intro u member
    rcases mem_append.mp member with this | later
    · rcases mem_append.mp this with inner | set
      · exact absurd inner not_mem_nil
      · exact mem_append_left _ (mem_append_right _ set)
    · refine mem_append_right _ ?_
      split at later
      next passing =>
        rw [if_pos passing]
        exact ih u later
      next => exact absurd later not_mem_nil
  | alternation l rule next _ ih =>
    intro u member
    rcases mem_append.mp member with this | later
    · rcases mem_append.mp this with inner | set
      · exact absurd inner not_mem_nil
      · exact mem_append_left _ (mem_append_right _ set)
    · refine mem_append_right _ ?_
      split at later
      next => exact absurd later not_mem_nil
      next more =>
        rw [if_neg more]
        exact ih u later

theorem first_rest_inside (justified : FlagsJustified g flags) {next : Rule}
    (part : Part g next) (sequence : next.sequence = true)
    {setp : Slot} (into : ∀ a, Leads g (content next) a → a ∈ followMeaning g setp) :
    ∀ u ∈ first flags true setp false next, u.Inside (followMeaning g) := by
  intro u member
  exact first_inside followMeaning_first justified next part setp false
    (fun _ => .rest sequence into) u (first_less flags setp next u member)

theorem inside_if {m : Slot → Set Nat} {u : Update Slot Nat} {now : Prop} [Decidable now]
    (inside : now → u.Inside m) : ∀ v ∈ (if now then [u] else []), v.Inside m := by
  intro v member
  split at member
  next yes =>
    rw [mem_singleton.mp member]
    exact inside yes
  next => exact absurd member not_mem_nil

/-- All that `follow` adds lies in the FOLLOW sets. -/
theorem follow_inside (justified : FlagsJustified g flags)
    (counted : ∀ t ∈ allTerms g, Counted t.1) (p : Rule) (part : Part g p) (setp : Slot)
    (occurs : Occurs g p (followMeaning g setp)) :
    ∀ u ∈ follow flags setp p, u.Inside (followMeaning g) := by
  induction p generalizing setp with
  | eorule => exact fun u member => absurd member not_mem_nil
  | action next ih =>
    obtain ⟨sequence, part⟩ := part.action
    exact ih part setp (.of_content (occurs.1 sequence))
  | terminal t next ih =>
    obtain ⟨sequence, part⟩ := part.terminal
    exact ih part setp (.of_content (occurs.1 sequence).rest)
  | nonterm n npar lineno next ih =>
    obtain ⟨sequence, part⟩ := part.nonterm
    have context := occurs.1 sequence
    refine inside_append (inside_append ?_ (inside_if fun nothing => ?_)) ?_
    · exact first_rest_inside justified part sequence fun a leads =>
        Context.leads (w := [.nonterm n]) context leads
    · exact fun a member => Context.vanish (w := [.nonterm n]) context
        (empty_justified justified part.shaped nothing).1 member
    · exact ih part setp (.of_content context.rest)
  | term q rule next ihRule ihNext =>
    obtain ⟨here, inner, sequence, part⟩ := part.term
    have context := occurs.1 sequence
    -- what comes after the term comes after the last of its copies
    have alone : Context g [.term q rule]
        {a | ∃ before rest, Rooted g (before ++ [.term q rule] ++ .token a :: rest)} := by
      obtain ⟨before, after, rooted⟩ := context.1
      refine ⟨⟨before, content next ++ after, ?_⟩, fun a member => member⟩
      rwa [content, List.append_cons, append_assoc] at rooted
    obtain ⟨left, derives⟩ := Derives.last_copy (g := g) q rule
    have copy := alone.last left derives
    have last : ∀ a, (∃ before rest, Rooted g (before ++ [.term q rule] ++ .token a :: rest)) →
        a ∈ followMeaning g (.tFollow q.id) := by
      intro a after q' rule' member same
      cases eq_of_nodup g.ownTerms member here same
      exact copy.2 a after
    refine inside_append (inside_append (inside_append (inside_append (inside_if fun nothing => ?_)
      ?_) ?_) ?_) ?_
    · exact fun a member => last a (Context.vanish (w := [.term q rule]) context
        (empty_justified justified part.shaped nothing).1 member)
    · exact first_rest_inside justified part sequence fun a leads =>
        last a (Context.leads (w := [.term q rule]) context leads)
    · intro u member
      split at member
      next again =>
        obtain ⟨left, derives⟩ := Derives.last_copies (g := g) rule again (counted _ here)
        have copies := alone.last left derives
        refine ihRule inner (.tFirst q.id) (.of_content ⟨copy.1, fun a starts => ?_⟩) u member
        exact copies.leads (starts q rule here rfl)
      next => exact absurd member not_mem_nil
    · refine ihRule inner (.tFollow q.id) (.of_content ⟨copy.1, ?_⟩)
      exact fun a member => member q rule here rfl
    · exact ihNext part setp (.of_content context.rest)
  | alternation l rule next ihRule ihNext =>
    obtain ⟨-, inner, choices, part⟩ := part.alternation
    have each := occurs.2 choices
    refine inside_append (ihRule inner setp (.of_content (each l rule mem_cons_self))) ?_
    refine ihNext part setp
      ⟨fun sequence => ?_, fun _ m r among => each m r (List.mem_cons_of_mem _ among)⟩
    cases next with
    | eorule =>
      refine (each l rule mem_cons_self).last (content rule) ?_
      rw [content, append_nil]
    | alternation l' rule' next' => exact absurd sequence Bool.false_ne_true
    | _ => exact absurd choices Bool.false_ne_true

/-! ### What `do_compute` leaves -/

theorem doCompute_steps (done : doCompute fuel g = some (flags, s)) :
    ∃ first follow, settle (g.range.map (nempty g)) fuel (fun _ => false) = some flags ∧
      settle ((firsts g flags).map run) fuel (fun _ => ∅) = some first ∧
      settle ((follows g flags).map run) fuel (withEofile g first) = some follow ∧
      s = (run (dirsymbs g flags) follow).1 := by
  unfold doCompute at done
  simp only [Option.bind_eq_bind, Option.bind_eq_some_iff] at done
  obtain ⟨flags', ended, first, firstEnded, follow, followEnded, same⟩ := done
  cases same
  exact ⟨first, follow, ended, firstEnded, followEnded, rfl⟩

theorem dirsymbs_frame (s : Sets) {i : Slot} (other : ∀ n, i ≠ .lSymbs n ∧ i ≠ .lOthers n) :
    (run (dirsymbs g flags) s).1 i = s i := by
  refine run_frame (fun u member dst => ?_) s
  obtain ⟨n, symbs | others⟩ := dirsymbs_updates member
  · exact (other n).1 (dst.symm.trans symbs)
  · exact (other n).2 (dst.symm.trans others)

/-- The loop for FOLLOW begins with nothing that is not justified. -/
theorem withEofile_inside (justified : FlagsJustified g flags) {first : Sets}
    (ended : settle ((firsts g flags).map run) fuel (fun _ => ∅) = some first) (i : Slot) :
    ↑(withEofile g first i) ⊆ followMeaning g i := by
  have frame (i : Slot) (other : (∀ n, i ≠ .nFirst n) ∧ ∀ n, i ≠ .tFirst n ∧ i ≠ .lSymbs n) :
      first i = ∅ := by
    refine runs_frame (fun us member u among dst => ?_) ended
    obtain ⟨m, -, rfl⟩ := mem_map.mp member
    rcases first_updates flags false _ false _ u among with ⟨same, -⟩ | ⟨-, id, term | link⟩
    · exact other.1 m (dst.symm.trans same)
    · exact (other.2 id).1 (dst.symm.trans term)
    · exact (other.2 id).2 (dst.symm.trans link)
  refine run_inside (fun u member => ?_) (fun j => ?_) i
  · obtain ⟨n, start, rfl⟩ := mem_map.mp member
    refine ⟨[], [], n, g.started n start, ?_⟩
    rw [root, if_pos start]
    exact .refl
  · have inside := runs_inside (firsts_inside justified) (by simp) ended j
    cases j with
    | nFirst n | tFirst n | lSymbs n | lOthers n => exact inside
    | nFollow n | tFollow n =>
      rw [frame _ (by simp), Finset.coe_empty]
      exact Set.empty_subset _

/-- Whatever is in a FOLLOW set can come after the nonterminal. -/
theorem follow_sound (justified : FlagsJustified g flags) (counted : ∀ t ∈ allTerms g, Counted t.1)
    {first follow : Sets}
    (firstEnded : settle ((firsts g flags).map run) fuel (fun _ => ∅) = some first)
    (ended : settle ((follows g flags).map run) fuel (withEofile g first) = some follow)
    (member : a ∈ follow (.nFollow n)) :
    ∃ before rest, Rooted g (before ++ .nonterm n :: .token a :: rest) := by
  have inside : ∀ us ∈ follows g flags, ∀ u ∈ us, u.Inside (followMeaning g) := by
    intro us among
    obtain ⟨m, inRange, rfl⟩ := mem_map.mp among
    have declared := mem_range.mp inRange
    have opened := Derives.opened (g := g) (.nonterm declared)
    have context : Context g [.nonterm m] (followMeaning g (.nFollow m)) :=
      ⟨⟨[], if m ∈ g.start then [.token eofile] else [], m, declared, .refl⟩, fun a inside => inside⟩
    exact follow_inside justified counted _ (rule_part declared) _
      (.of_content (context.last [] opened))
  obtain ⟨before, rest, rooted⟩ :=
    runs_inside inside (withEofile_inside justified firstEnded) ended (.nFollow n) member
  rw [← List.append_cons] at rooted
  exact ⟨before, rest, rooted⟩

/-- The loops end, and their sets are the least ones. -/
theorem least_sets (g : Grammar) : ∃ flags s,
    (∃ enough, ∀ fuel ≥ enough, doCompute fuel g = some (flags, s)) ∧
    (∀ n, flags n = true ↔ Derives g [.nonterm n] []) ∧
    (∀ n a, a ∈ s (.nFirst n) ↔ Leads g [.nonterm n] a) ∧
    (∀ n a, ComesAfter g n a ∨ ComesAfterUnreachable g n a → a ∈ s (.nFollow n)) ∧
    ((∀ t ∈ allTerms g, Counted t.1) →
      ∀ n a, a ∈ s (.nFollow n) → ComesAfter g n a ∨ ComesAfterUnreachable g n a) := by
  obtain ⟨flags, s, computed, enough, ended⟩ := doCompute_computed g
  have covering := computed.covering
  refine ⟨flags, s, ⟨enough, ended⟩, fun n => ⟨computed.produced n, fun nothing => ?_⟩,
    fun n a => ⟨computed.justified n a, fun leads => ?_⟩, fun n a after => ?_,
    fun counted n a member => ?_⟩
  · have vanishing : ∀ form, Derives g [.nonterm n] form → formEmpty flags form = true →
        formEmpty flags [.nonterm n] = true := by
      intro form derives
      induction derives with
      | refl => exact id
      | tail _ step ih => exact fun last => ih ((covering.step step).1 last)
    simpa [formEmpty, Sym.empty] using vanishing [] nothing rfl
  · simpa [formFirst, Sym.first] using covering.leads leads
  · obtain ⟨before, rest, rooted⟩ := rooted_of_comesAfter after
    exact follow_complete covering computed.toFollowSolved rooted
  · obtain ⟨first, follow, -, firstEnded, followEnded, same⟩ := doCompute_steps (ended enough le_rfl)
    rw [same, dirsymbs_frame _ (by simp)] at member
    exact comesAfter_or_unreachable (follow_sound computed.produced counted firstEnded followEnded member)

/-- `S : [ 'a' ]* ;` -/
theorem least_sets_manyAs : ∃ flags s,
    (∃ enough, ∀ fuel ≥ enough, doCompute fuel manyAs = some (flags, s)) ∧
    ∀ n a, a ∈ s (.nFollow n) → ComesAfter manyAs n a ∨ ComesAfterUnreachable manyAs n a := by
  obtain ⟨flags, s, ended, -, -, -, follow⟩ := least_sets manyAs
  exact ⟨flags, s, ended, follow (by decide)⟩

theorem Step.cons_cases (step : Step g (x :: form) form') :
    (∃ w, Expands g x w ∧ form' = w ++ form) ∨ ∃ later, Step g form later ∧ form' = x :: later := by
  generalize whole : x :: form = start at step
  obtain ⟨before, expands, after⟩ := step
  cases before with
  | nil =>
    cases whole
    exact .inl ⟨_, expands, rfl⟩
  | cons y before =>
    cases whole
    exact .inr ⟨_, .replace before expands after, rfl⟩

theorem Step.nil : ¬ Step g [] form := by
  intro step
  generalize whole : ([] : List Sym) = start at step
  obtain ⟨before, -, after⟩ := step
  cases before <;> cases whole

theorem Step.tokens (ts : List Nat) : ¬ Step g (ts.map Sym.token) form := by
  induction ts generalizing form with
  | nil => exact Step.nil
  | cons t ts ih =>
    intro step
    rcases Step.cons_cases step with ⟨w, expands, -⟩ | ⟨later, deeper, -⟩
    · cases expands
    · exact ih deeper

theorem Step.head {x : Sym} (ts : List Nat) {form : List Sym}
    (step : Step g (x :: ts.map Sym.token) form) :
    ∃ w, Expands g x w ∧ form = w ++ ts.map Sym.token := by
  rcases Step.cons_cases step with replaced | ⟨later, deeper, -⟩
  · exact replaced
  · exact absurd deeper (Step.tokens ts)

/-- `S : 'a' ; U : S 'b' ;`, where `U` is not reachable. -/
def unreachableU : Grammar where
  nonterms := [{ rule := .terminal 1 .eorule }, { rule := .nonterm 0 0 0 (.terminal 2 .eorule) }]
  files := [[0, 1]]
  start := [0]
  shaped := by decide
  declared := by decide
  started := by decide
  listed := by decide
  ownTerms := by decide
  ownLinks := by decide

theorem unreachableU_forms (sentential : Sentential unreachableU form) :
    form = [.nonterm 0, .token eofile] ∨ form = [.token 1, .token eofile] := by
  obtain ⟨n, start, derives⟩ := sentential
  cases mem_singleton.mp start
  induction derives with
  | refl => exact .inl rfl
  | tail _ step ih =>
    rcases ih with rfl | rfl
    · obtain ⟨w, expands, rfl⟩ := Step.head [eofile] step
      cases expands
      exact .inr rfl
    · exact absurd step (Step.tokens [1, eofile])

def oneN : Grammar where
  nonterms := [{ rule := .term { id := 0, num := 1 } (.nonterm 1 0 0 .eorule) (.terminal 1 .eorule) },
    { rule := .terminal 2 .eorule }]
  files := [[0, 1]]
  start := [0]
  shaped := by decide
  declared := by decide
  started := by decide
  listed := by decide
  ownTerms := by decide
  ownLinks := by decide

theorem oneN_forms (sentential : Sentential oneN form) :
    form = [.nonterm 0, .token eofile] ∨
      form = [.term { id := 0, num := 1 } (.nonterm 1 0 0 .eorule), .token 1, .token eofile] ∨
      form = [.nonterm 1, .token 1, .token eofile] ∨ form = [.token 2, .token 1, .token eofile] := by
  obtain ⟨n, start, derives⟩ := sentential
  cases mem_singleton.mp start
  induction derives with
  | refl => exact .inl rfl
  | tail _ step ih =>
    rcases ih with rfl | rfl | rfl | rfl
    · obtain ⟨w, expands, rfl⟩ := Step.head [eofile] step
      cases expands
      exact .inr (.inl rfl)
    · obtain ⟨w, expands, rfl⟩ := Step.head [1, eofile] step
      cases expands with
      | fixed kind => exact .inr (.inr (.inl rfl))
      | star kind | plus kind | opt kind => exact Kind.noConfusion kind
    · obtain ⟨w, expands, rfl⟩ := Step.head [1, eofile] step
      cases expands
      exact .inr (.inr (.inr rfl))
    · exact absurd step (Step.tokens [2, 1, eofile])

/-- A set that has too much because of a rule that is not reachable, and one because a count of
one is taken for a repetition. -/
theorem follow_too_large :
    (∃ r, doCompute 3 unreachableU = some r ∧ 2 ∈ r.2 (.nFollow 0) ∧ ¬ ComesAfter unreachableU 0 2) ∧
    (∃ r, doCompute 3 oneN = some r ∧ 2 ∈ r.2 (.nFollow 1) ∧ ¬ ComesAfter oneN 1 2) := by
  have unreachable : (doCompute 3 unreachableU).map (fun r => decide (2 ∈ r.2 (.nFollow 0))) =
      some true := by decide +kernel
  have single : (doCompute 3 oneN).map (fun r => decide (2 ∈ r.2 (.nFollow 1))) = some true := by
    decide +kernel
  obtain ⟨r, computed, member⟩ := Option.map_eq_some_iff.mp unreachable
  obtain ⟨r', computed', member'⟩ := Option.map_eq_some_iff.mp single
  refine ⟨⟨r, computed, of_decide_eq_true member, ?_⟩, r', computed', of_decide_eq_true member', ?_⟩
  · rintro ⟨before, rest, sentential⟩
    have after : Sym.token 2 ∈ before ++ .nonterm 0 :: .token 2 :: rest := by simp
    rcases unreachableU_forms sentential with same | same
    all_goals
      rw [same] at after
      simp [eofile] at after
  · rintro ⟨before, rest, sentential⟩
    have here : Sym.nonterm 1 ∈ before ++ .nonterm 1 :: .token 2 :: rest := by simp
    have after : Sym.token 2 ∈ before ++ .nonterm 1 :: .token 2 :: rest := by simp
    rcases oneN_forms sentential with same | same | same | same
    all_goals
      rw [same] at here after
      simp [eofile] at here after

end AckFormal.LLgen.Solved
