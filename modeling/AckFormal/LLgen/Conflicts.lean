import AckFormal.LLgen.Directed

/-!
# Grammars that are accepted

Where `conflchecks` has nothing to say, a parser can decide every choice from the next
terminal, except in one place: a term with a fixed count above 1 whose rule is a list
of alternatives.  `follow` sees that such a term is followed by itself, but
`co_dirsymb` adds to an alternative that produces empty only what comes after the
whole term.  The grammar is LL(1) exactly when no such term can be reached in which
an alternative produces empty while another one starts with a terminal.
-/

namespace AckFormal.LLgen.Solved

open Lib.Settle Lib.Inclusion LLgen.Compute LLgen.Check LLgen.Derivation
open List (mem_append mem_append_left mem_append_right mem_cons mem_cons_of_mem mem_cons_self
  not_mem_nil)
open Bool (and_eq_true)

variable {g : Grammar} {flags : Flags} {s : Sets}

/-! ### The sets at the end -/

structure Computed (g : Grammar) (flags : Flags) (s : Sets) : Prop extends
    FollowSolved g flags s where
  produced : FlagsJustified g flags
  empties : ∀ n < g.nonterms.length, empty flags (g.rule n) = true → flags n = true
  directed : ∀ n < g.nonterms.length, DirCovered flags s (s (.nFollow n)) (g.rule n)
  others : ∀ n < g.nonterms.length, ∀ list ∈ lists (g.rule n),
    list.choices = true → OthersCovered s list.alternatives

variable {after after' : Finset Nat} {p rule : Rule} {q : Term} {l : Link} {form : List Sym}

theorem FollowCovered.of_same {t : Sets} (nFirst : ∀ n, t (.nFirst n) = s (.nFirst n))
    (nFollow : ∀ n, t (.nFollow n) = s (.nFollow n)) (tFirst : ∀ i, t (.tFirst i) = s (.tFirst i))
    (tFollow : ∀ i, t (.tFollow i) = s (.tFollow i)) (covered : FollowCovered flags s after p) :
    FollowCovered flags t after p := by
  have starts : ∀ next after, starters flags t next after = starters flags s next after := by
    intro next after
    rw [starters, starters, funext nFirst]
  induction p generalizing after with
  | eorule => trivial
  | action next ih | terminal t next ih => exact ih covered
  | nonterm n npar lineno next ih =>
    refine ⟨?_, ih covered.2⟩
    rw [starts, nFollow]
    exact covered.1
  | term q rule next ihRule ihNext =>
    refine ⟨?_, fun again => ?_, ?_, ihNext covered.2.2.2⟩
    · rw [starts, tFollow]
      exact covered.1
    · rw [tFirst]
      exact ihRule (covered.2.1 again)
    · rw [tFollow]
      exact ihRule covered.2.2.1
  | alternation l rule next ihRule ihNext => exact ⟨ihRule covered.1, ihNext covered.2⟩

/-- Behind `co_dirsymb` each alternative has its director set. -/
theorem dirsymbs_computed (produced : FlagsJustified g flags)
    (empties : ∀ n < g.nonterms.length, empty flags (g.rule n) = true → flags n = true)
    (solved : FollowSolved g flags s) : Computed g flags (run (dirsymbs g flags) s).1 := by
  have same : ∀ i : Slot, (∀ n, i ≠ .lSymbs n ∧ i ≠ .lOthers n) →
      (run (dirsymbs g flags) s).1 i = s i := by
    intro i other
    refine run_frame (fun u member dst => ?_) s
    obtain ⟨n, symbs | others⟩ := dirsymbs_updates member
    · exact (other n).1 (dst.symm.trans symbs)
    · exact (other n).2 (dst.symm.trans others)
  refine { toFirstSolved := ?_, started := ?_, followed := ?_, produced := produced,
           empties := empties, directed := ?_, others := ?_ }
  · exact solved.toFirstSolved.of_same (fun n => same _ (by simp)) (fun i => same _ (by simp))
      fun i => run_mono _ _ _
  · intro n start
    rw [same _ (by simp)]
    exact solved.started n start
  · intro n declared
    rw [same _ (by simp)]
    exact (solved.followed n declared).of_same (fun n => same _ (by simp))
      (fun n => same _ (by simp)) (fun i => same _ (by simp)) fun i => same _ (by simp)
  · intro n declared
    have added : ∀ u ∈ coDirsymb flags (.nFollow n) none (g.rule n),
        (∃ i, u.src = .set (.nFollow i) ∨ u.src = .set (.tFollow i)) →
          u.src.value (run (dirsymbs g flags) s).1 ⊆ (run (dirsymbs g flags) s).1 u.dst := by
      intro u member fromFollow
      have value : u.src.value (run (dirsymbs g flags) s).1 = u.src.value s := by
        obtain ⟨i, source | source⟩ := fromFollow
        all_goals
          rw [source]
          exact same _ (by simp)
      rw [value]
      refine run_adds (List.mem_flatMap.mpr ⟨n, mem_range.mpr declared, member⟩)
        (fun v among src => ?_) s
      obtain ⟨j, symbs | others⟩ := dirsymbs_updates among
      all_goals simp_all
    exact coDirsymb_covered ⟨n, .inl rfl⟩ added
  · intro n declared list member choices
    exact (dirsymbs_segments declared list member).covered choices s

theorem doCompute_computed (g : Grammar) : ∃ flags s, Computed g flags s ∧
    ∃ enough, ∀ fuel ≥ enough, doCompute fuel g = some (flags, s) := by
  obtain ⟨flags, enough, flagsEnd⟩ := flags_end g
  have produced := flags_justified (flagsEnd enough (Nat.le_refl _))
  have empties := fun n declared => flags_closed (flagsEnd enough (Nat.le_refl _)) (n := n) declared
  obtain ⟨firstSets, bounded, enough', firstsEnd⟩ := runs_end (firsts g flags)
    (s := fun _ => ∅) ⟨∅, fun _ => Finset.Subset.refl _⟩
  have first := firsts_solved produced (firstsEnd enough' (Nat.le_refl _))
  have bounded' : Bounded (withEofile g firstSets) := bounded.run _
  obtain ⟨followSets, -, enough'', followsEnd⟩ := runs_end (follows g flags) bounded'
  have follow := follows_solved first (followsEnd enough'' (Nat.le_refl _))
  refine ⟨flags, _, dirsymbs_computed produced empties follow, max enough (max enough' enough''),
    fun fuel large => ?_⟩
  rw [doCompute, flagsEnd fuel (by omega), Option.bind_eq_bind, Option.bind_some,
    firstsEnd fuel (by omega), Option.bind_eq_bind, Option.bind_some]
  change (settle ((follows g flags).map run) fuel (withEofile g firstSets)).bind _ = _
  rw [followsEnd fuel (by omega)]
  rfl

/-! ### Rules inside rules -/

/-- What is known about every rule in a grammar that is accepted. -/
structure Sound (flags : Flags) (s : Sets) (p : Rule) : Prop where
  shaped : p.shaped = true
  distinct : (p.links.map fun l => l.1.id).Nodup
  covered : FirstCovered flags (fun n => s (.nFirst n)) s p
  varying : ∀ q rule, (q, rule) ∈ p.terms → q.kind ≠ .fixed →
    empty flags rule = false ∧ Disjoint (s (.tFirst q.id)) (s (.tFollow q.id))
  exclusive : ∀ list ∈ lists p, Exclusive s list

theorem Sound.sub {p' : Rule} (sound : Sound flags s p) (shaped : p'.shaped = true)
    (terms : ∀ t ∈ p'.terms, t ∈ p.terms) (links : List.Sublist p'.links p.links)
    (inside : ∀ list ∈ lists p', list ∈ lists p) : Sound flags s p' where
  shaped := shaped
  distinct := sound.distinct.sublist (links.map _)
  covered :=
    ⟨fun q rule member => sound.covered.terms q rule (terms _ member),
      fun l rule member => sound.covered.links l rule (links.subset member)⟩
  varying q rule member := sound.varying q rule (terms _ member)
  exclusive list member := sound.exclusive list (inside list member)

theorem lists_of_sequence (sequence : p.sequence = true) : lists p = inner p := by
  cases p with
  | alternation l rule next => exact nomatch sequence
  | _ => rfl

theorem Sound.next {p next : Rule} (sound : Sound flags s p) (shaped : next.shaped = true)
    (sequence : next.sequence = true) (terms : p.terms = next.terms) (links : p.links = next.links)
    (inside : inner p = inner next) : Sound flags s next := by
  refine sound.sub shaped (fun t member => terms ▸ member) (links ▸ List.Sublist.refl _)
    fun list member => mem_append_right _ ?_
  rw [lists_of_sequence sequence] at member
  exact inside ▸ member

theorem Sound.termRule {next : Rule} (sound : Sound flags s (.term q rule next)) :
    Sound flags s rule := by
  have shaped := sound.shaped
  simp only [Rule.shaped, and_eq_true] at shaped
  refine sound.sub shaped.1.1 (fun t member => mem_cons_of_mem _ (mem_append_left _ member))
    (List.sublist_append_left _ _) fun list member => ?_
  exact mem_append_right _ (mem_append_left _ member)

theorem Sound.termNext {next : Rule} (sound : Sound flags s (.term q rule next)) :
    Sound flags s next := by
  have shaped := sound.shaped
  simp only [Rule.shaped, and_eq_true] at shaped
  refine sound.sub shaped.2 (fun t member => mem_cons_of_mem _ (mem_append_right _ member))
    (List.sublist_append_right _ _) fun list member => ?_
  rw [lists_of_sequence shaped.1.2] at member
  exact mem_append_right _ (mem_append_right _ member)

theorem Sound.alternative (sound : Sound flags s p) (among : (l, rule) ∈ p.alternatives) :
    Sound flags s rule := by
  have inside : ∀ {p : Rule}, p.shaped = true → (l, rule) ∈ p.alternatives →
      rule.shaped = true ∧ (∀ t ∈ rule.terms, t ∈ p.terms) ∧ List.Sublist rule.links p.links ∧
        ∀ list ∈ lists rule, list ∈ inner p := by
    intro p shaped among
    induction p with
    | alternation m r next _ ih =>
      simp only [Rule.shaped, and_eq_true] at shaped
      rcases mem_cons.mp among with same | later
      · cases same
        exact ⟨shaped.1.1, fun t member => mem_append_left _ member,
          (List.sublist_append_left _ _).cons _, fun list member => mem_append_left _ member⟩
      · obtain ⟨shape, terms, links, deeper⟩ := ih shaped.2 later
        exact ⟨shape, fun t member => mem_append_right _ (terms t member),
          (links.trans (List.sublist_append_right _ _)).cons _,
          fun list member => mem_append_right _ (deeper list member)⟩
    | _ => exact absurd among not_mem_nil
  obtain ⟨shaped, terms, links, deeper⟩ := inside sound.shaped among
  exact sound.sub shaped terms links fun list member => mem_append_right _ (deeper list member)

theorem FollowCovered.alternative (covered : FollowCovered flags s after p)
    (among : (l, rule) ∈ p.alternatives) : FollowCovered flags s after rule := by
  induction p with
  | alternation m r next _ ih =>
    rcases mem_cons.mp among with same | later
    · cases same
      exact covered.1
    · exact ih covered.2 later
  | _ => exact absurd among not_mem_nil

theorem DirCovered.alternative (covered : DirCovered flags s after p)
    (among : (l, rule) ∈ p.alternatives) :
    (empty flags rule = true → after ⊆ s (.lSymbs l.id)) ∧ DirCovered flags s after rule := by
  induction p with
  | alternation m r next _ ih =>
    rcases mem_cons.mp among with same | later
    · cases same
      exact ⟨covered.1, covered.2.1⟩
    · exact ih covered.2.2 later
  | _ => exact absurd among not_mem_nil

/-! ### Terms that are followed by themselves -/

theorem DirCovered.sequence (sequence : p.sequence = true) (covered : DirCovered flags s after p) :
    DirCovered flags s after' p := by
  induction p with
  | eorule => trivial
  | action next ih | terminal t next ih | nonterm n npar lineno next ih =>
    exact ih sequence covered
  | term q rule next _ ih => exact ⟨covered.1, ih sequence covered.2⟩
  | alternation l rule next => exact nomatch sequence

/-- If the rule does not produce empty, what comes after it does not matter. -/
theorem DirCovered.of_not_empty (shaped : p.shaped = true) (something : empty flags p = false)
    (covered : DirCovered flags s after p) : DirCovered flags s after' p := by
  induction p with
  | eorule => trivial
  | action next ih | terminal t next ih | nonterm n npar lineno next ih =>
    simp only [Rule.shaped, and_eq_true] at shaped
    exact DirCovered.sequence (p := next) shaped.1 covered
  | term q rule next _ _ =>
    simp only [Rule.shaped, and_eq_true] at shaped
    exact ⟨covered.1, DirCovered.sequence shaped.1.2 covered.2⟩
  | alternation l rule next ihRule ihNext =>
    simp only [Rule.shaped, and_eq_true] at shaped
    simp only [empty, Bool.or_eq_false_iff, Bool.and_eq_false_iff] at something
    refine ⟨fun nothing => Bool.noConfusion (nothing.symm.trans something.1),
      ihRule shaped.1.1 something.1 covered.2.1, ?_⟩
    rcases something.2 with last | later
    · cases not_not.mp (of_decide_eq_false last)
      trivial
    · exact ihNext shaped.2 later covered.2.2

theorem firstSet_alternatives {firsts : Nat → Finset Nat} (choices : p.choices = true) {a : Nat}
    (starts : a ∈ firstSet flags firsts p) :
    ∃ l rule, (l, rule) ∈ p.alternatives ∧ a ∈ firstSet flags firsts rule := by
  induction p with
  | eorule => exact absurd starts (Finset.notMem_empty a)
  | alternation l rule next _ ih =>
    rcases Finset.mem_union.mp starts with this | later
    · exact ⟨l, rule, mem_cons_self, this⟩
    · obtain ⟨m, r, among, inside⟩ := ih choices later
      exact ⟨m, r, mem_cons_of_mem _ among, inside⟩
  | _ => exact nomatch choices

section

variable (computed : Computed g flags s)
include computed

theorem Computed.covering :
    Covering g flags fun n => s (.nFirst n) :=
  ⟨computed.empties, computed.first⟩

/-- In a list that is not ambiguous everything starts the one alternative that produces empty. -/
theorem firstSet_vanishing (sound : Sound flags s p)
    (clear : ¬ Ambiguous g p) (among : (l, rule) ∈ p.alternatives)
    (nothing : empty flags rule = true) :
    firstSet flags (fun n => s (.nFirst n)) p ⊆ firstSet flags (fun n => s (.nFirst n)) rule ∧
      ¬ Ambiguous g rule := by
  have derives := (empty_justified computed.produced (sound.alternative among).shaped nothing).1
  refine ⟨fun a starts => ?_, fun inner => clear (.inside among derives inner)⟩
  have choices : p.choices = true := by
    have shaped := sound.shaped
    cases p with
    | alternation m r next =>
      simp only [Rule.shaped, and_eq_true] at shaped
      exact shaped.1.2
    | _ => exact absurd among not_mem_nil
  obtain ⟨m, r, other, inside⟩ := firstSet_alternatives choices starts
  by_cases same : m = l
  · have equal : (m, r) = (l, rule) := eq_of_nodup sound.distinct (alternatives_links p _ other)
      (alternatives_links p _ among) (congrArg Link.id same)
    cases equal
    exact inside
  · have leads := (firstSet_justified computed.produced computed.justified
      (sound.alternative other).shaped inside).1
    exact absurd (Ambiguous.here among derives other same leads) clear

/-- The sets of such a list are right even when what the list starts with comes after it. -/
theorem DirCovered.again {set : Finset Nat}
    (shaped : p.shaped = true) (first : FirstCovered flags (fun n => s (.nFirst n)) s p)
    (sound : ∀ l rule, (l, rule) ∈ p.alternatives → Sound flags s rule)
    (covered : DirCovered flags s after p)
    (vanishing : ∀ l rule, (l, rule) ∈ p.alternatives → empty flags rule = true →
      set ⊆ firstSet flags (fun n => s (.nFirst n)) rule ∧ ¬ Ambiguous g rule) :
    DirCovered flags s set p := by
  induction p with
  | eorule => trivial
  | action next _ | terminal t next _ | nonterm n npar lineno next _ =>
    simp only [Rule.shaped, and_eq_true] at shaped
    exact DirCovered.sequence (p := next) shaped.1 covered
  | term q rule next _ _ =>
    simp only [Rule.shaped, and_eq_true] at shaped
    exact ⟨covered.1, DirCovered.sequence shaped.1.2 covered.2⟩
  | alternation l rule next ihRule ihNext =>
    simp only [Rule.shaped, and_eq_true] at shaped
    have here := sound l rule mem_cons_self
    have own := first.links l rule mem_cons_self
    refine ⟨fun nothing => ?_, ?_, ihNext shaped.2 first.nextLink
      (fun m r among => sound m r (mem_cons_of_mem _ among)) covered.2.2
      fun m r among => vanishing m r (mem_cons_of_mem _ among)⟩
    · exact (vanishing l rule mem_cons_self nothing).1.trans own
    · cases nothing : empty flags rule with
      | false => exact covered.2.1.of_not_empty shaped.1.1 nothing
      | true =>
        obtain ⟨starts, clear⟩ := vanishing l rule mem_cons_self nothing
        refine ihRule shaped.1.1 first.innerLink (fun m r among => here.alternative among)
          covered.2.1 fun m r among nothing' => ?_
        obtain ⟨more, clear'⟩ := firstSet_vanishing computed here clear among nothing'
        exact ⟨starts.trans more, clear'⟩

theorem Sound.again (sound : Sound flags s rule)
    (clear : ¬ Ambiguous g rule) (covered : DirCovered flags s after rule) :
    DirCovered flags s (firstSet flags (fun n => s (.nFirst n)) rule) rule :=
  covered.again computed sound.shaped sound.covered (fun _ _ among => sound.alternative among)
    fun _ _ among nothing => firstSet_vanishing computed sound clear among nothing

end

/-! ### Sentential forms -/

/-- What can come next when `after` can come after the form. -/
def nexts (flags : Flags) (s : Sets) (form : List Sym) (after : Finset Nat) : Finset Nat :=
  formFirst flags (fun n => s (.nFirst n)) form ∪ if formEmpty flags form then after else ∅

structure TermOk (flags : Flags) (s : Sets) (q : Term) (rule : Rule) : Prop where
  first : firstSet flags (fun n => s (.nFirst n)) rule ⊆ s (.tFirst q.id)
  sound : Sound flags s rule
  again : repeats q = true → FollowCovered flags s (s (.tFirst q.id)) rule
  followed : FollowCovered flags s (s (.tFollow q.id)) rule
  directed : DirCovered flags s (s (.tFollow q.id)) rule
  varying : q.kind ≠ .fixed →
    empty flags rule = false ∧ Disjoint (s (.tFirst q.id)) (s (.tFollow q.id))

def SymOk (flags : Flags) (s : Sets) (after : Finset Nat) : Sym → Prop
  | .token _ => True
  | .nonterm n => after ⊆ s (.nFollow n)
  | .term q rule => TermOk flags s q rule ∧ after ⊆ s (.tFollow q.id)
  | .loop q rule left =>
    TermOk flags s q rule ∧ after ⊆ s (.tFollow q.id) ∧ q.kind ≠ .fixed ∧
      (q.kind = .opt → left = some 1 ∨ left = some 0)
  | .choice alts =>
    Sound flags s alts ∧ Exclusive s alts ∧ FollowCovered flags s after alts ∧
      DirCovered flags s after alts

def FormOk (flags : Flags) (s : Sets) (after : Finset Nat) : List Sym → Prop
  | [] => True
  | x :: form => SymOk flags s (nexts flags s form after) x ∧ FormOk flags s after form

theorem nexts_append (form form' : List Sym) (after : Finset Nat) :
    nexts flags s (form ++ form') after = nexts flags s form (nexts flags s form' after) := by
  rw [nexts, formFirst_append, formEmpty_append, nexts, nexts]
  cases formEmpty flags form <;> simp [Finset.union_assoc]

theorem nexts_mono (fewer : after ⊆ after') :
    nexts flags s form after ⊆ nexts flags s form after' := by
  refine Finset.union_subset_union_right ?_
  split
  next => exact fewer
  next => exact Finset.Subset.refl _

theorem nexts_content (p : Rule) (after : Finset Nat) :
    nexts flags s (content p) after = starters flags s p after := by
  rw [nexts, formFirst_content, formEmpty_content, starters]

theorem SymOk.mono (fewer : after ⊆ after') {x : Sym} (ok : SymOk flags s after' x) :
    SymOk flags s after x := by
  cases x with
  | token t => trivial
  | nonterm n => exact fewer.trans ok
  | term q rule => exact ⟨ok.1, fewer.trans ok.2⟩
  | loop q rule left => exact ⟨ok.1, fewer.trans ok.2.1, ok.2.2⟩
  | choice alts => exact ⟨ok.1, ok.2.1, ok.2.2.1.mono fewer, ok.2.2.2.mono fewer⟩

theorem FormOk.mono (fewer : after ⊆ after') (ok : FormOk flags s after' form) :
    FormOk flags s after form := by
  induction form with
  | nil => trivial
  | cons x form ih => exact ⟨ok.1.mono (nexts_mono fewer), ih ok.2⟩

theorem formOk_append {form' : List Sym} :
    FormOk flags s after (form ++ form') ↔
      FormOk flags s (nexts flags s form' after) form ∧ FormOk flags s after form' := by
  induction form with
  | nil => simp [FormOk]
  | cons x form ih =>
    rw [List.cons_append, FormOk, FormOk, ih, nexts_append, and_assoc]

theorem formOk_content (sound : Sound flags s p) (followed : FollowCovered flags s after p)
    (directed : DirCovered flags s after p) : FormOk flags s after (content p) := by
  induction p with
  | eorule => trivial
  | action next ih =>
    have shaped := sound.shaped
    simp only [Rule.shaped, and_eq_true] at shaped
    exact ih (sound.next shaped.2 shaped.1 rfl rfl rfl) followed directed
  | terminal t next ih =>
    have shaped := sound.shaped
    simp only [Rule.shaped, and_eq_true] at shaped
    exact ⟨trivial, ih (sound.next shaped.2 shaped.1 rfl rfl rfl) followed directed⟩
  | nonterm n npar lineno next ih =>
    have shaped := sound.shaped
    simp only [Rule.shaped, and_eq_true] at shaped
    refine ⟨?_, ih (sound.next shaped.2 shaped.1 rfl rfl rfl) followed.2 directed⟩
    rw [nexts_content]
    exact followed.1
  | term q rule next _ ih =>
    refine ⟨⟨⟨sound.covered.terms q rule mem_cons_self, sound.termRule, followed.2.1,
      followed.2.2.1, directed.1, sound.varying q rule mem_cons_self⟩, ?_⟩,
      ih sound.termNext followed.2.2.2 directed.2⟩
    rw [nexts_content]
    exact followed.1
  | alternation l rule next _ _ =>
    refine ⟨⟨sound, sound.exclusive _ (mem_append_left _ mem_cons_self), ?_, ?_⟩, trivial⟩
    · simpa [nexts, formFirst, formEmpty] using followed
    · simpa [nexts, formFirst, formEmpty] using directed

theorem nexts_loop {left : Option Nat} :
    nexts flags s [.loop q rule left] after ⊆
      firstSet flags (fun n => s (.nFirst n)) rule ∪ after := by
  refine Finset.union_subset_union ?_ ?_
  · simp only [formFirst, Sym.first, ite_self, Finset.union_empty]
    split
    next => exact Finset.empty_subset _
    next => exact Finset.Subset.refl _
  · split
    next => exact Finset.Subset.refl _
    next => exact Finset.empty_subset _

theorem nexts_copies {count : Nat} :
    nexts flags s (copies rule count) after ⊆
      firstSet flags (fun n => s (.nFirst n)) rule ∪ after := by
  refine Finset.union_subset_union (formFirst_copies rule count) ?_
  split
  next => exact Finset.Subset.refl _
  next => exact Finset.empty_subset _

/-- A rule in a term when the term can come after itself. -/
theorem TermOk.content_again (ok : TermOk flags s q rule) (again : repeats q = true)
    (directed : DirCovered flags s (firstSet flags (fun n => s (.nFirst n)) rule) rule)
    (inside : after ⊆ s (.tFollow q.id))
    (follows : after' ⊆ firstSet flags (fun n => s (.nFirst n)) rule ∪ after) :
    FormOk flags s after' (content rule) := by
  refine formOk_content ok.sound ?_ ?_
  · exact (((ok.again again).mono ok.first).union (ok.followed.mono inside)).mono follows
  · exact (directed.union (ok.directed.mono inside)).mono follows

theorem TermOk.content_loop (ok : TermOk flags s q rule) (varying : q.kind ≠ .fixed)
    {left : Option Nat} (inside : after ⊆ s (.tFollow q.id)) (opt : q.kind = .opt → left = some 0) :
    FormOk flags s after (content rule ++ [.loop q rule left]) := by
  refine formOk_append.mpr ⟨?_, ⟨ok, by simpa [nexts, formFirst, formEmpty] using inside, varying,
    fun kind => .inr (opt kind)⟩, trivial⟩
  by_cases kind : q.kind = .opt
  · rw [opt kind]
    refine (formOk_content ok.sound ok.followed ok.directed).mono ?_
    simpa [nexts, formFirst, formEmpty, Sym.first, Sym.empty] using inside
  · have again : repeats q = true := by
      cases shape : q.kind with
      | fixed => exact absurd shape varying
      | opt => exact absurd shape kind
      | star => simp [repeats, shape]
      | plus => simp [repeats, shape]
    have directed : DirCovered flags s (firstSet flags (fun n => s (.nFirst n)) rule) rule :=
      ok.directed.of_not_empty ok.sound.shaped (ok.varying varying).1
    exact ok.content_again again directed inside nexts_loop

/-- In a fixed term with a count above 1 that can be reached nothing is ambiguous. -/
def Clear (g : Grammar) : Prop :=
  ∀ before q rule after, Sentential g (before ++ .term q rule :: after) → q.kind = .fixed →
    2 ≤ q.num → ¬ Ambiguous g rule

section

variable (computed : Computed g flags s) (sound : ∀ n < g.nonterms.length, Sound flags s (g.rule n))
include computed sound

/-- The sets are right for what a nonterminal expands to. -/
theorem formOk_expands {x : Sym} {w : List Sym}
    (expands : Expands g x w) (ok : SymOk flags s after x)
    (clear : ∀ q rule, x = .term q rule → q.kind = .fixed → 2 ≤ q.num → ¬ Ambiguous g rule) :
    FormOk flags s after w := by
  cases expands with
  | nonterm declared =>
    exact formOk_content (sound _ declared) ((computed.followed _ declared).mono ok)
      ((computed.directed _ declared).mono ok)
  | @fixed q kind rule =>
    by_cases single : q.num < 2
    · rw [show max q.num 1 = 0 + 1 by omega, copies, copies, List.append_nil]
      exact formOk_content ok.1.sound (ok.1.followed.mono ok.2) (ok.1.directed.mono ok.2)
    · have many : 2 ≤ q.num := Nat.le_of_not_lt single
      have again : repeats q = true := by
        simp only [repeats, Bool.or_eq_true, decide_eq_true_eq]
        omega
      have directed := ok.1.sound.again computed (clear q rule rfl kind many) ok.1.directed
      generalize max q.num 1 = count
      induction count with
      | zero => trivial
      | succ count ih =>
        exact formOk_append.mpr ⟨ok.1.content_again again directed ok.2 nexts_copies, ih⟩
  | @star q kind rule =>
    refine ⟨⟨ok.1, ?_, by simp [kind], by simp [kind]⟩, trivial⟩
    simpa [nexts, formFirst, formEmpty] using ok.2
  | @plus q kind rule =>
    exact ok.1.content_loop (by simp [kind]) ok.2 (by simp [kind])
  | @opt q kind rule =>
    refine ⟨⟨ok.1, ?_, by simp [kind], fun _ => .inl rfl⟩, trivial⟩
    simpa [nexts, formFirst, formEmpty] using ok.2
  | @«continue» q rule left more =>
    refine ok.1.content_loop ok.2.2.1 ok.2.1 fun kind => ?_
    rcases ok.2.2.2 kind with one | zero
    · rw [one]
      rfl
    · exact absurd zero more
  | stop q rule left => trivial
  | choose among =>
    exact formOk_content (ok.1.alternative among) (ok.2.2.1.alternative among)
      (ok.2.2.2.alternative among).2

theorem formOk_step (clear : Clear g) {form' : List Sym}
    (sentential : Sentential g form) (step : Step g form form') (ok : FormOk flags s ∅ form) :
    FormOk flags s ∅ form' := by
  obtain ⟨before, expands, after⟩ := step
  rename_i x w
  obtain ⟨okBefore, okSym, okAfter⟩ := formOk_append.mp ok
  rw [List.append_assoc]
  have okNew := formOk_expands computed sound expands okSym fun q rule same =>
    clear before q rule after (same ▸ sentential)
  refine formOk_append.mpr ⟨okBefore.mono ?_, formOk_append.mpr ⟨okNew, okAfter⟩⟩
  obtain ⟨nothing, starts⟩ := computed.covering.expands expands
  rw [nexts_append]
  change _ ⊆ nexts flags s ([x] ++ after) ∅
  rw [nexts_append]
  refine Finset.union_subset_union ?_ ?_
  · exact starts.trans (by simp [formFirst])
  · split
    next vanishes => rw [if_pos (by simpa [formEmpty] using nothing vanishes)]
    next => exact Finset.empty_subset _

theorem sentential_formOk (clear : Clear g)
    (sentential : Sentential g form) : FormOk flags s ∅ form := by
  obtain ⟨n, start, derives⟩ := sentential
  induction derives with
  | refl =>
    refine ⟨?_, trivial, trivial⟩
    exact Finset.singleton_subset_iff.mpr (computed.started n start)
  | tail before step ih => exact formOk_step computed sound clear ⟨n, start, before⟩ step ih

end

/-! ### Without complaints -/

theorem disjoints_terms (disjoints : Disjoints flags s p) :
    ∀ q rule, (q, rule) ∈ p.terms → q.kind ≠ .fixed →
      empty flags rule = false ∧ Disjoint (s (.tFirst q.id)) (s (.tFollow q.id)) := by
  induction p with
  | eorule => exact fun q rule member => absurd member not_mem_nil
  | action next ih | terminal t next ih | nonterm n npar lineno next ih => exact ih disjoints
  | term q rule next ihRule ihNext =>
    intro q' rule' member
    rcases mem_cons.mp member with same | deeper
    · cases same
      exact disjoints.1
    · exact (mem_append.mp deeper).elim (ihRule disjoints.2.1 q' rule')
        (ihNext disjoints.2.2 q' rule')
  | alternation l rule next ihRule ihNext =>
    intro q' rule' member
    exact (mem_append.mp member).elim (ihRule disjoints.2.1 q' rule')
      (ihNext disjoints.2.2 q' rule')

theorem disjoints_links (disjoints : Disjoints flags s p) :
    ∀ l ∈ p.links, Disjoint (s (.lSymbs l.1.id)) (s (.lOthers l.1.id)) := by
  induction p with
  | eorule => exact fun l member => absurd member not_mem_nil
  | action next ih | terminal t next ih | nonterm n npar lineno next ih => exact ih disjoints
  | term q rule next ihRule ihNext =>
    intro l member
    exact (mem_append.mp member).elim (ihRule disjoints.2.1 l) (ihNext disjoints.2.2 l)
  | alternation m rule next ihRule ihNext =>
    intro l member
    rcases mem_cons.mp member with rfl | deeper
    · exact disjoints.1
    · exact (mem_append.mp deeper).elim (ihRule disjoints.2.1 l) (ihNext disjoints.2.2 l)

theorem own_choices {list : Rule} (shaped : p.shaped = true) (member : list ∈ own p) :
    list.choices = true := by
  cases p with
  | alternation l rule next =>
    cases List.mem_singleton.mp member
    simp only [Rule.shaped, and_eq_true] at shaped
    exact shaped.1.2
  | _ => exact absurd member not_mem_nil

theorem lists_choices {list : Rule} (shaped : p.shaped = true) (member : list ∈ lists p) :
    list.choices = true := by
  refine (mem_append.mp member).elim (own_choices shaped) fun deeper => ?_
  clear member
  induction p with
  | eorule => exact absurd deeper not_mem_nil
  | action next ih | terminal t next ih | nonterm n npar lineno next ih =>
    simp only [Rule.shaped, and_eq_true] at shaped
    exact ih shaped.2 deeper
  | term q rule next ihRule ihNext | alternation l rule next ihRule ihNext =>
    simp only [Rule.shaped, and_eq_true] at shaped
    rcases mem_append.mp deeper with this | later
    · exact (mem_append.mp this).elim (own_choices shaped.1.1) (ihRule shaped.1.1)
    · exact ihNext shaped.2 later

theorem Computed.sound (computed : Computed g flags s) {n : Nat}
    (declared : n < g.nonterms.length) (disjoints : Disjoints flags s (g.rule n)) :
    Sound flags s (g.rule n) where
  shaped := rule_shaped g n
  distinct := rule_distinct declared
  covered := computed.covered n declared
  varying := disjoints_terms disjoints
  exclusive list member := by
    have others := computed.others n declared list member (lists_choices (rule_shaped g n) member)
    refine others.imp_of_mem fun {l l'} isLink _ subset => ?_
    exact (disjoints_links disjoints l (lists_links member l isLink)).mono_right subset

/-! ### What the parser can decide -/

/-- What a complete form leads to is among what can come next. -/
theorem Computed.leads (computed : Computed g flags s) {a : Nat} (leads : Leads g form a) :
    a ∈ nexts flags s form ∅ :=
  Finset.mem_union_left _ (computed.covering.leads leads)

section

variable (computed : Computed g flags s) (sound : ∀ n < g.nonterms.length, Sound flags s (g.rule n))
  (clear : Clear g)
include computed sound clear

theorem alternatives_decided :
    AlternativeDecided g s := by
  intro before alts after sentential
  have ok := sentential_formOk computed sound clear sentential
  obtain ⟨soundAlts, exclusive, -, directed⟩ := (formOk_append.mp ok).2.1
  have chosen : ∀ l rule, (l, rule) ∈ alts.alternatives → ∀ a,
      Leads g (content rule ++ after) a → a ∈ s (.lSymbs l.id) := by
    intro l rule among a leads
    have next := computed.leads leads
    rw [nexts_append, nexts_content] at next
    rcases Finset.mem_union.mp next with starts | follows
    · exact soundAlts.covered.links l rule (alternatives_links alts _ among) starts
    · split at follows
      next nothing => exact (directed.alternative among).1 nothing follows
      next => exact absurd follows (Finset.notMem_empty a)
  intro l rule among a leads
  refine ⟨chosen l rule among a leads, fun l' rule' among' either => ?_⟩
  exact exclusive.eq among among' (chosen l rule among a leads)
    (either.elim (fun inSet => inSet) (chosen l' rule' among' a))

theorem repetitions_decided :
    RepetitionDecided g s := by
  intro before q rule left after sentential more a
  have ok := sentential_formOk computed sound clear sentential
  obtain ⟨term, follows, varying, -⟩ := (formOk_append.mp ok).2.1
  obtain ⟨something, disjoint⟩ := term.varying varying
  have again : Leads g (content rule ++ .loop q rule (less left) :: after) a →
      a ∈ s (.tFirst q.id) := by
    intro leads
    have next := computed.leads leads
    rw [nexts_append, nexts_content, starters, if_neg (by simp [something])] at next
    exact term.first (by simpa using next)
  have stop : Leads g after a → a ∈ s (.tFollow q.id) := fun leads => follows (computed.leads leads)
  have apart : a ∈ s (.tFirst q.id) → a ∉ s (.tFollow q.id) :=
    fun inFirst => Finset.disjoint_left.mp disjoint inFirst
  refine ⟨fun leads => ⟨again leads, apart (again leads), fun other => apart (again leads) (stop other)⟩,
    fun leads => ⟨stop leads, fun inFirst => apart inFirst (stop leads),
      fun other => apart (again other) (stop leads)⟩⟩

end

/-- Where a list is ambiguous and can be followed by what it starts with, a choice is not
decided. -/
theorem ambiguous_undecided (ambiguous : Ambiguous g p) (decided : AlternativeDecided g s)
    {before after : List Sym} (sentential : Sentential g (before ++ content p ++ after))
    (again : ∀ a, Leads g (content p) a → Leads g after a) : False := by
  have list : ∀ {p : Rule} {l : Link} {rule : Rule}, (l, rule) ∈ p.alternatives →
      content p = [.choice p] := by
    intro p l rule among
    cases p with
    | alternation m r next => rfl
    | _ => exact absurd among not_mem_nil
  have opened : ∀ {p : Rule} {l : Link} {rule : Rule}, (l, rule) ∈ p.alternatives →
      Derives g (content p) (content rule) := by
    intro p l rule among
    have chosen := Derives.expand (g := g) (.choose among) [] []
    rw [list among]
    simpa using chosen
  induction ambiguous generalizing before with
  | @here p l l' rule rule' a vanishing nothing other different something =>
    rw [list vanishing, List.append_assoc] at sentential
    have direct : Leads g (content rule' ++ after) a := something.append after
    have late : Leads g (content rule ++ after) a :=
      .skip _ nothing (again a (.of_derives (opened other) something))
    exact different ((decided before p after sentential l rule vanishing a late).2 l' rule' other
      (.inr direct))
  | @inside p l rule vanishing nothing _ ih =>
    exact ih (sentential.derives ((opened vanishing).context before after))
      fun a leads => again a (.of_derives (opened vanishing) leads)

/-- A grammar without conflict resolvers that is accepted is LL(1), with the sets that decide,
exactly if in no fixed term with a count above 1 that can be reached the alternatives are
ambiguous. -/
theorem accepted_decided_iff (g : Grammar) (plain : ∀ p ∈ g.nonterms, unresolved p.rule = true) :
    ∃ flags s, (∃ enough, ∀ fuel ≥ enough, doCompute fuel g = some (flags, s)) ∧
      ((conflchecks g flags s).2 = [] → (Decided g s ↔ Clear g)) := by
  obtain ⟨flags, s, computed, ends⟩ := doCompute_computed g
  refine ⟨flags, s, ends, fun quiet => ⟨fun decided => ?_, fun clear => ?_⟩⟩
  · intro before q rule after sentential kind many ambiguous
    obtain ⟨count, twice⟩ : ∃ count, max q.num 1 = count + 1 + 1 := ⟨max q.num 1 - 2, by omega⟩
    have opened := sentential.derives (Derives.expand (.fixed kind rule) before after)
    have twoCopies : Sentential g (before ++ content rule ++
        (content rule ++ (copies rule count ++ after))) := by
      simpa [twice, copies] using opened
    exact ambiguous_undecided ambiguous decided.1 twoCopies fun a leads => leads.append _
  · have sound := fun n declared => computed.sound declared
      (conflchecks_disjoints (n := n) plain quiet declared)
    exact ⟨alternatives_decided computed sound clear, repetitions_decided computed sound clear⟩

def manyAs : Grammar where
  nonterms := [{ rule := .term { id := 0, kind := .star } (.terminal 1 .eorule) .eorule }]
  files := [[0]]
  start := [0]
  shaped := by decide
  declared := by decide
  started := by decide
  listed := by decide
  ownTerms := by decide
  ownLinks := by decide

theorem accepted_decided_iff_manyAs :
    ∃ flags s, (∃ enough, ∀ fuel ≥ enough, doCompute fuel manyAs = some (flags, s)) ∧
      ((conflchecks manyAs flags s).2 = [] → (Decided manyAs s ↔ Clear manyAs)) :=
  accepted_decided_iff manyAs (by decide)

def optionalA : Rule :=
  .alternation { id := 0 } (.terminal 1 .eorule) (.alternation { id := 1 } .eorule .eorule)

def twoOptionalAs : Grammar where
  nonterms := [{ rule := .term { id := 0, num := 2 } optionalA .eorule }]
  files := [[0]]
  start := [0]
  shaped := by decide
  declared := by decide
  started := by decide
  listed := by decide
  ownTerms := by decide
  ownLinks := by decide

/-- No conflict is found, but at the first `a` both alternatives are possible. -/
theorem twoOptionalAs_accepted_undecided :
    ∃ r, doCompute 3 twoOptionalAs = some r ∧
      (conflchecks twoOptionalAs r.1 r.2).2 = [] ∧ ¬ Decided twoOptionalAs r.2 := by
  have accepted : (doCompute 3 twoOptionalAs).map
      (fun r => (conflchecks twoOptionalAs r.1 r.2).2) = some [] := by decide +kernel
  obtain ⟨r, computed, quiet⟩ := Option.map_eq_some_iff.mp accepted
  refine ⟨r, computed, quiet, fun decided => ?_⟩
  have start : Sentential twoOptionalAs [.nonterm 0, .token eofile] :=
    ⟨0, List.mem_singleton.mpr rfl, .refl⟩
  have opened := (start.derives (Derives.expand (.nonterm (by decide)) [] [.token eofile])).derives
    (Derives.expand (.fixed rfl optionalA) [] [.token eofile])
  have ambiguous : Ambiguous twoOptionalAs optionalA :=
    .here (List.mem_cons_of_mem _ List.mem_cons_self) .refl List.mem_cons_self (by decide)
      ⟨[], .refl⟩
  have twice : Sentential twoOptionalAs
      ([] ++ content optionalA ++ (content optionalA ++ [.token eofile])) := opened
  exact ambiguous_undecided ambiguous decided.1 twice fun a leads => leads.append [.token eofile]

end AckFormal.LLgen.Solved
