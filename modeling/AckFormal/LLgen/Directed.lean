import AckFormal.LLgen.Followed

/-!
# The last pass

`co_dirsymb` and `co_others`: after it the set of an alternative that produces empty
contains what comes after it, and `l_others` the sets of the later alternatives of
the list.  The second part rests on the order of the additions: when the
`l_others` sets of a list are made, nothing more is added to the sets of its
alternatives.
-/

namespace AckFormal.LLgen.Solved

open Lib.Settle Lib.Inclusion LLgen.Compute LLgen.Derivation
open List (mem_append mem_append_left mem_append_right mem_cons mem_cons_of_mem mem_cons_self
  mem_map_of_mem mem_singleton not_mem_nil pairwise_cons)

variable {g : Grammar} {flags : Flags}

/-- The sets of the alternatives that produce empty are right when `after` can come after the
rule. -/
def DirCovered (flags : Flags) (s : Sets) (after : Finset Nat) : Rule → Prop
  | .eorule => True
  | .action next | .terminal _ next | .nonterm _ _ _ next => DirCovered flags s after next
  | .term q rule next =>
    DirCovered flags s (s (.tFollow q.id)) rule ∧ DirCovered flags s after next
  | .alternation l rule next =>
    (empty flags rule = true → after ⊆ s (.lSymbs l.id)) ∧ DirCovered flags s after rule ∧
      DirCovered flags s after next

variable {s : Sets} {p list : Rule} {u : Update Slot Nat} {us : List (Update Slot Nat)}

theorem DirCovered.mono {after after' : Finset Nat} (fewer : after ⊆ after')
    (covered : DirCovered flags s after' p) : DirCovered flags s after p := by
  induction p with
  | eorule => trivial
  | action next ih | terminal t next ih | nonterm n npar lineno next ih => exact ih covered
  | term q rule next _ ih => exact ⟨covered.1, ih covered.2⟩
  | alternation l rule next ihRule ihNext =>
    exact ⟨fun nothing => fewer.trans (covered.1 nothing), ihRule covered.2.1, ihNext covered.2.2⟩

theorem DirCovered.union {after after' : Finset Nat} (first : DirCovered flags s after p)
    (second : DirCovered flags s after' p) : DirCovered flags s (after ∪ after') p := by
  induction p with
  | eorule => trivial
  | action next ih | terminal t next ih | nonterm n npar lineno next ih => exact ih first second
  | term q rule next _ ih => exact ⟨first.1, ih first.2 second.2⟩
  | alternation l rule next ihRule ihNext =>
    exact ⟨fun nothing => Finset.union_subset (first.1 nothing) (second.1 nothing),
      ihRule first.2.1 second.2.1, ihNext first.2.2 second.2.2⟩

/-! ### What the pass adds to -/

theorem coOthers_dst (member : u ∈ coOthers list) : ∃ i, u.dst = .lOthers i := by
  induction list with
  | alternation l1 rule1 next _ ih =>
    cases next with
    | alternation l2 rule2 rest =>
      rcases mem_cons.mp member with rfl | later
      · exact ⟨l1.id, rfl⟩
      · split at later
        next => exact absurd later not_mem_nil
        next =>
          rcases mem_append.mp later with inner | last
          · exact ih inner
          · rw [mem_singleton.mp last]
            exact ⟨l1.id, rfl⟩
    | _ => exact absurd member not_mem_nil
  | _ => exact absurd member not_mem_nil

def DirUpdate (p : Rule) (u : Update Slot Nat) : Prop :=
  (∃ l rule, (l, rule) ∈ p.links ∧ u.dst = .lSymbs l.id) ∨ ∃ i, u.dst = .lOthers i

theorem DirUpdate.of_links {p' : Rule} (links : ∀ l ∈ p.links, l ∈ p'.links)
    (update : DirUpdate p u) : DirUpdate p' u := by
  rcases update with ⟨l, rule, member, dst⟩ | others
  · exact .inl ⟨l, rule, links _ member, dst⟩
  · exact .inr others

theorem coDirsymb_updates (setp : Slot) (first : Option Rule) (p : Rule) :
    ∀ u ∈ coDirsymb flags setp first p, DirUpdate p u := by
  induction p generalizing setp first with
  | eorule => exact nofun
  | action next ih | terminal t next ih | nonterm n npar lineno next ih => exact ih setp first
  | term q rule next ihRule ihNext =>
    intro u member
    rcases mem_append.mp member with inner | later
    · exact (ihRule _ none u inner).of_links fun l => mem_append_left _
    · exact (ihNext setp first u later).of_links fun l => mem_append_right _
  | alternation l rule next ihRule ihNext =>
    intro u member
    rcases mem_append.mp member with before | later
    · rcases mem_append.mp before with inner | own
      · refine DirUpdate.of_links (fun l among => ?_) (ihRule setp none u inner)
        exact mem_cons_of_mem _ (mem_append_left _ among)
      · split at own
        next =>
          rw [mem_singleton.mp own]
          exact .inl ⟨l, rule, mem_cons_self, rfl⟩
        next => exact absurd own not_mem_nil
    · split at later
      next => exact .inr (coOthers_dst later)
      next =>
        refine DirUpdate.of_links (fun l among => ?_) (ihNext setp _ u later)
        exact mem_cons_of_mem _ (mem_append_right _ among)

theorem dirsymbs_updates (member : u ∈ dirsymbs g flags) :
    ∃ i, u.dst = .lSymbs i ∨ u.dst = .lOthers i := by
  obtain ⟨n, -, inside⟩ := List.mem_flatMap.mp member
  rcases coDirsymb_updates _ none _ u inside with ⟨l, rule, -, dst⟩ | ⟨i, dst⟩
  · exact ⟨l.id, .inl dst⟩
  · exact ⟨i, .inr dst⟩

/-- What is added from FOLLOW sets is there after the pass. -/
theorem coDirsymb_covered {setp : Slot} {first : Option Rule}
    (isFollow : ∃ i, setp = .nFollow i ∨ setp = .tFollow i) (added : ∀ u ∈ coDirsymb flags setp first p,
      (∃ i, u.src = .set (.nFollow i) ∨ u.src = .set (.tFollow i)) →
        u.src.value s ⊆ s u.dst) : DirCovered flags s (s setp) p := by
  induction p generalizing setp first with
  | eorule => trivial
  | action next ih | terminal t next ih | nonterm n npar lineno next ih => exact ih isFollow added
  | term q rule next ihRule ihNext =>
    exact ⟨ihRule ⟨q.id, .inr rfl⟩ fun u member => added u (mem_append_left _ member),
      ihNext isFollow fun u member => added u (mem_append_right _ member)⟩
  | alternation l rule next ihRule ihNext =>
    refine ⟨fun nothing => ?_, ihRule isFollow fun u member =>
      added u (mem_append_left _ (mem_append_left _ member)), ?_⟩
    · have member : setunion (.lSymbs l.id) setp ∈ coDirsymb flags setp first
          (.alternation l rule next) := by
        refine mem_append_left _ (mem_append_right _ ?_)
        rw [if_pos nothing]
        exact mem_cons_self
      refine added _ member ?_
      obtain ⟨i, nonterm | term⟩ := isFollow
      · exact ⟨i, .inl (congrArg Source.set nonterm)⟩
      · exact ⟨i, .inr (congrArg Source.set term)⟩
    · by_cases last : next = .eorule
      · rw [last]
        trivial
      · have rest : ∀ u ∈ coDirsymb flags setp (some (first.getD (.alternation l rule next))) next,
            (∃ i, u.src = .set (.nFollow i) ∨ u.src = .set (.tFollow i)) →
              u.src.value s ⊆ s u.dst := by
          refine fun u member => added u (mem_append_right _ ?_)
          rw [if_neg last]
          exact member
        exact ihNext isFollow rest

/-! ### The other alternatives -/

def own : Rule → List Rule
  | .alternation l rule next => [.alternation l rule next]
  | _ => []

def inner : Rule → List Rule
  | .eorule => []
  | .action next | .terminal _ next | .nonterm _ _ _ next => inner next
  | .term _ rule next | .alternation _ rule next => (own rule ++ inner rule) ++ inner next

def lists (p : Rule) : List Rule := own p ++ inner p

theorem alternatives_links (p : Rule) : ∀ l ∈ p.alternatives, l ∈ p.links := by
  induction p with
  | alternation m rule next _ ih =>
    intro l member
    rcases mem_cons.mp member with rfl | later
    · exact mem_cons_self
    · exact mem_cons_of_mem _ (mem_append_right _ (ih l later))
  | _ => exact fun l member => absurd member not_mem_nil

theorem inner_links (member : list ∈ inner p) : ∀ l ∈ list.alternatives, l ∈ p.links := by
  have ownLinks : ∀ {rule : Rule}, list ∈ own rule → ∀ l ∈ list.alternatives, l ∈ rule.links := by
    intro rule own
    cases rule with
    | alternation l rule next =>
      cases mem_singleton.mp own
      exact alternatives_links _
    | _ => exact absurd own not_mem_nil
  induction p with
  | eorule => exact absurd member not_mem_nil
  | action next ih | terminal t next ih | nonterm n npar lineno next ih => exact ih member
  | term q rule next ihRule ihNext =>
    intro l among
    rcases mem_append.mp member with (this | later)
    · exact mem_append_left _
        ((mem_append.mp this).elim (fun o => ownLinks o l among) fun i => ihRule i l among)
    · exact mem_append_right _ (ihNext later l among)
  | alternation m rule next ihRule ihNext =>
    intro l among
    refine mem_cons_of_mem _ ?_
    rcases mem_append.mp member with (this | later)
    · exact mem_append_left _
        ((mem_append.mp this).elim (fun o => ownLinks o l among) fun i => ihRule i l among)
    · exact mem_append_right _ (ihNext later l among)

/-- The additions contain those of `co_others` for the list, and after them nothing is added to
the sets of its alternatives. -/
def Segment (us : List (Update Slot Nat)) (list : Rule) : Prop :=
  ∃ before after, us = before ++ coOthers list ++ after ∧
    ∀ u ∈ after, ∀ l ∈ list.alternatives, u.dst ≠ .lSymbs l.1.id

theorem Segment.extend {vs : List (Update Slot Nat)} (segment : Segment us list)
    (ws : List (Update Slot Nat))
    (apart : ∀ u ∈ vs, ∀ l ∈ list.alternatives, u.dst ≠ .lSymbs l.1.id) :
    Segment (ws ++ us ++ vs) list := by
  obtain ⟨before, after, split, quiet⟩ := segment
  refine ⟨ws ++ before, after ++ vs, by simp [split], fun u member => ?_⟩
  exact (mem_append.mp member).elim (quiet u) (apart u)

theorem Segment.later (segment : Segment us list) (ws : List (Update Slot Nat)) :
    Segment (ws ++ us) list := by
  have none : ∀ u ∈ ([] : List (Update Slot Nat)), ∀ l ∈ list.alternatives,
      u.dst ≠ .lSymbs l.1.id :=
    fun u member => absurd member not_mem_nil
  have extended := segment.extend ws none
  rwa [List.append_nil] at extended

/-- The additions for a rule do not touch the alternatives of another one. -/
theorem DirUpdate.apart (update : DirUpdate p u)
    (different : ∀ l ∈ list.alternatives, ∀ l' ∈ p.links, l'.1.id ≠ l.1.id) :
    ∀ l ∈ list.alternatives, u.dst ≠ .lSymbs l.1.id := by
  intro l among same
  rcases update with ⟨l', rule, member, dst⟩ | ⟨i, dst⟩
  · exact different l among _ member (Slot.lSymbs.inj (dst.symm.trans same))
  · exact nomatch dst.symm.trans same

theorem lists_links (member : list ∈ lists p) : ∀ l ∈ list.alternatives, l ∈ p.links := by
  rcases mem_append.mp member with own | deeper
  · cases p with
    | alternation l rule next =>
      cases mem_singleton.mp own
      exact alternatives_links _
    | _ => exact absurd own not_mem_nil
  · exact inner_links deeper

theorem nodup_append_links {first second : List (Link × Rule)}
    (distinct : ((first ++ second).map fun l => l.1.id).Nodup) :
    (first.map fun l => l.1.id).Nodup ∧ (second.map fun l => l.1.id).Nodup ∧
      ∀ l ∈ first, ∀ l' ∈ second, l'.1.id ≠ l.1.id := by
  rw [List.map_append, List.nodup_append] at distinct
  refine ⟨distinct.1, distinct.2.1, fun l member l' member' same => ?_⟩
  exact distinct.2.2 _ (mem_map_of_mem member) _ (mem_map_of_mem member') same.symm

def Segments (flags : Flags) (p : Rule) : Prop :=
  ∀ setp first, (∀ list ∈ inner p, Segment (coDirsymb flags setp first p) list) ∧
    (p ≠ .eorule → p.choices = true → Segment (coDirsymb flags setp first p) (first.getD p))

/-- The whole rule is such a list as well if it has alternatives. -/
theorem Segments.lists {rule : Rule} (segments : Segments flags rule)
    (shaped : rule.shaped = true) (setp : Slot) :
    ∀ list ∈ lists rule, Segment (coDirsymb flags setp none rule) list := by
  intro list member
  rcases mem_append.mp member with own | deeper
  · cases rule with
    | alternation l rule next =>
      cases mem_singleton.mp own
      simp only [Rule.shaped, Bool.and_eq_true] at shaped
      exact (segments setp none).2 (fun same => Rule.noConfusion same) shaped.1.2
    | _ => exact absurd own not_mem_nil
  · exact (segments setp none).1 list deeper

/-- Every list of alternatives of a rule has its segment. -/
theorem coDirsymb_segments (shaped : p.shaped = true)
    (distinct : (p.links.map fun l => l.1.id).Nodup) : Segments flags p := by
  induction p with
  | eorule => exact fun setp first => ⟨fun list member => absurd member not_mem_nil,
      fun more => absurd rfl more⟩
  | action next ih | terminal t next ih | nonterm n npar lineno next ih =>
    simp only [Rule.shaped, Bool.and_eq_true] at shaped
    exact fun setp first => ⟨(ih shaped.2 distinct setp first).1, fun _ choices =>
      absurd choices Bool.false_ne_true⟩
  | term q rule next ihRule ihNext =>
    simp only [Rule.shaped, Bool.and_eq_true] at shaped
    obtain ⟨inRule, inNext, apart⟩ := nodup_append_links distinct
    intro setp first
    refine ⟨fun list member => ?_, fun _ choices => absurd choices Bool.false_ne_true⟩
    rcases mem_append.mp member with this | later
    · refine ((ihRule shaped.1.1 inRule).lists shaped.1.1 (.tFollow q.id) list this).extend []
        fun u among => ?_
      exact (coDirsymb_updates setp first next u among).apart fun l own l' other =>
        apart l (lists_links this l own) l' other
    · exact ((ihNext shaped.2 inNext setp first).1 list later).later _
  | alternation m rule next ihRule ihNext =>
    simp only [Rule.shaped, Bool.and_eq_true] at shaped
    obtain ⟨fresh, distinct⟩ := List.nodup_cons.mp distinct
    obtain ⟨inRule, inNext, apart⟩ := nodup_append_links distinct
    intro setp first
    have whole : coDirsymb flags setp first (.alternation m rule next) =
        (coDirsymb flags setp none rule ++
          if empty flags rule then [setunion (.lSymbs m.id) setp] else []) ++
          if next = .eorule then coOthers (first.getD (.alternation m rule next))
          else coDirsymb flags setp (some (first.getD (.alternation m rule next))) next := rfl
    refine ⟨fun list member => ?_, fun _ _ => ?_⟩
    · rcases mem_append.mp member with this | later
      · rw [whole, List.append_assoc]
        refine ((ihRule shaped.1.1 inRule).lists shaped.1.1 setp list this).extend []
          fun u among l own => ?_
        have ownLink := lists_links this l own
        rcases mem_append.mp among with enter | rest
        · split at enter
          next =>
            rw [mem_singleton.mp enter]
            intro same
            refine fresh (List.mem_map.mpr ⟨l, mem_append_left _ ownLink, ?_⟩)
            exact (Slot.lSymbs.inj same).symm
          next => exact absurd enter not_mem_nil
        · split at rest
          next =>
            obtain ⟨i, dst⟩ := coOthers_dst rest
            rw [dst]
            exact fun same => Slot.noConfusion same
          next =>
            exact (coDirsymb_updates setp _ next u rest).apart (fun l own l' other =>
              apart l (lists_links this l own) l' other) l own
      · have more : next ≠ .eorule := by
          rintro rfl
          exact absurd later not_mem_nil
        rw [whole, if_neg more]
        exact ((ihNext shaped.2 inNext setp
          (some (first.getD (.alternation m rule next)))).1 list later).later _
    · rw [whole]
      by_cases last : next = .eorule
      · rw [if_pos last]
        exact ⟨_, [], (List.append_nil _).symm, fun u member => absurd member not_mem_nil⟩
      · rw [if_neg last]
        have segment := ((ihNext shaped.2 inNext setp
          (some (first.getD (.alternation m rule next)))).2 last shaped.1.2).later
          (coDirsymb flags setp none rule ++
            if empty flags rule then [setunion (.lSymbs m.id) setp] else [])
        exact segment

/-- The alternatives of different nonterminals are different. -/
theorem links_apart (g : Grammar) : g.range.Pairwise fun m n =>
    ∀ l ∈ (g.rule m).links, ∀ l' ∈ (g.rule n).links, l'.1.id ≠ l.1.id := by
  have distinct := g.ownLinks
  rw [List.map_flatMap, List.nodup_flatMap] at distinct
  have apart := List.pairwise_iff_getElem.mp distinct.2
  rw [Grammar.range, List.pairwise_iff_getElem]
  intro i j inFirst inSecond less l member l' member'
  rw [List.length_range] at inFirst inSecond
  rw [List.getElem_range, Grammar.rule, List.getElem?_eq_getElem inFirst] at member
  rw [List.getElem_range, Grammar.rule, List.getElem?_eq_getElem inSecond] at member'
  intro same
  exact apart i j inFirst inSecond less (mem_map_of_mem member)
    (same ▸ mem_map_of_mem member')

theorem rule_distinct {n : Nat} (declared : n < g.nonterms.length) :
    ((g.rule n).links.map fun l => l.1.id).Nodup := by
  obtain ⟨p, member, same⟩ := rule_mem declared
  have distinct := g.ownLinks
  rw [List.map_flatMap, List.nodup_flatMap] at distinct
  rw [same]
  exact distinct.1 p member

theorem dirsymbs_segments {n : Nat} (declared : n < g.nonterms.length) :
    ∀ list ∈ lists (g.rule n), Segment (dirsymbs g flags) list := by
  intro list member
  have each : ∀ ns : List Nat, ns.Pairwise (fun m n => ∀ l ∈ (g.rule m).links,
        ∀ l' ∈ (g.rule n).links, l'.1.id ≠ l.1.id) → n ∈ ns →
      Segment (ns.flatMap fun n => coDirsymb flags (.nFollow n) none (g.rule n)) list := by
    intro ns
    induction ns with
    | nil => exact fun _ inside => absurd inside not_mem_nil
    | cons m ns ih =>
      intro apart inside
      obtain ⟨first, rest⟩ := pairwise_cons.mp apart
      by_cases here : n = m
      · cases here
        have segments : Segments flags (g.rule n) :=
          coDirsymb_segments (rule_shaped g n) (rule_distinct declared)
        refine (segments.lists (rule_shaped g n) (.nFollow n) list member).extend []
          fun u among => ?_
        obtain ⟨m, later, isUpdate⟩ := List.mem_flatMap.mp among
        exact (coDirsymb_updates _ none _ u isUpdate).apart fun l own l' other =>
          first m later l (lists_links member l own) l' other
      · have inRest := (mem_cons.mp inside).resolve_left here
        exact (ih rest inRest).later (coDirsymb flags (.nFollow m) none (g.rule m))
  exact each g.range (links_apart g) (mem_range.mpr declared)

/-- The `l_others` sets of a list contain the sets of the later alternatives. -/
def OthersCovered (s : Sets) (list : List (Link × Rule)) : Prop :=
  list.Pairwise fun l l' => s (.lSymbs l'.1.id) ⊆ s (.lOthers l.1.id)

theorem coOthers_symbs (list : Rule) (s : Sets) (i : Nat) :
    (run (coOthers list) s).1 (.lSymbs i) = s (.lSymbs i) := by
  refine run_frame (fun u member dst => ?_) s
  obtain ⟨j, others⟩ := coOthers_dst member
  exact nomatch dst.symm.trans others

theorem OthersCovered.mono {t : Sets} {list : List (Link × Rule)}
    (symbs : ∀ l ∈ list, t (.lSymbs l.1.id) ⊆ s (.lSymbs l.1.id))
    (others : ∀ i, s (.lOthers i) ⊆ t (.lOthers i)) (covered : OthersCovered s list) :
    OthersCovered t list :=
  covered.imp_of_mem fun _ member subset =>
    (symbs _ member).trans (subset.trans (others _))

theorem others_apply (l : Link) (src : Slot) (s : Sets) :
    (∀ i, ((setunion (.lOthers l.id) src).apply s).1 (.lSymbs i) = s (.lSymbs i)) ∧
      s src ⊆ ((setunion (.lOthers l.id) src).apply s).1 (.lOthers l.id) := by
  refine ⟨fun i => apply_of_ne _ s nofun, ?_⟩
  exact (Finset.subset_union_left).trans (apply_dst (setunion (.lOthers l.id) src) s).superset

/-- After `co_others` the sets contain those of the later alternatives. -/
theorem coOthers_covered (choices : list.choices = true) (s : Sets) :
    OthersCovered (run (coOthers list) s).1 list.alternatives := by
  induction list generalizing s with
  | alternation l1 rule1 next _ ih =>
    cases next with
    | alternation l2 rule2 rest =>
      obtain ⟨same, second⟩ := others_apply l1 (.lSymbs l2.id) s
      by_cases last : rest = .eorule
      · rw [last, coOthers, if_pos rfl, run_cons]
        refine pairwise_cons.mpr ⟨fun l member => ?_, List.pairwise_singleton _ _⟩
        rw [mem_singleton.mp member]
        exact (same l2.id).subset.trans second
      · rw [coOthers, if_neg last, run_cons, run_append, run_cons]
        have tail := ih choices ((setunion (.lOthers l1.id) (.lSymbs l2.id)).apply s).1
        have kept := coOthers_symbs (.alternation l2 rule2 rest)
          ((setunion (.lOthers l1.id) (.lSymbs l2.id)).apply s).1
        have grown := run_mono (coOthers (.alternation l2 rule2 rest))
          ((setunion (.lOthers l1.id) (.lSymbs l2.id)).apply s).1
        revert tail kept grown
        generalize (run (coOthers (.alternation l2 rule2 rest))
          ((setunion (.lOthers l1.id) (.lSymbs l2.id)).apply s).1).1 = t
        intro tail kept grown
        obtain ⟨same', third⟩ := others_apply l1 (.lOthers l2.id) t
        have mono := apply_mono (setunion (.lOthers l1.id) (.lOthers l2.id)) t
        refine pairwise_cons.mpr ⟨fun l member => ?_,
          tail.mono (fun l _ => (same' l.1.id).subset) fun i => mono _⟩
        refine (same' l.1.id).subset.trans ?_
        rcases mem_cons.mp member with rfl | later
        · refine (kept l2.id).subset.trans ((same l2.id).subset.trans (second.trans ?_))
          exact (grown _).trans (mono _)
        · exact ((pairwise_cons.mp tail).1 l later).trans third
    | eorule => exact List.pairwise_singleton _ _
    | _ => exact nomatch choices
  | _ => exact List.Pairwise.nil

/-- After the additions of a segment the `l_others` sets of its list are right. -/
theorem Segment.covered (segment : Segment us list) (choices : list.choices = true) (s : Sets) :
    OthersCovered (run us s).1 list.alternatives := by
  obtain ⟨before, after, rfl, quiet⟩ := segment
  rw [run_append, run_append]
  refine (coOthers_covered choices (run before s).1).mono (fun l member => ?_)
    fun i => run_mono after _ _
  exact (run_frame (fun u among => quiet u among l member) _).subset

/-- The sets of the alternatives of a list have no terminal in common. -/
def Exclusive (s : Sets) (list : Rule) : Prop :=
  list.alternatives.Pairwise fun l l' => Disjoint (s (.lSymbs l.1.id)) (s (.lSymbs l'.1.id))

theorem Exclusive.eq (exclusive : Exclusive s list) {l l' : Link} {rule rule' : Rule}
    (member : (l, rule) ∈ list.alternatives) (member' : (l', rule') ∈ list.alternatives) {a : Nat}
    (inFirst : a ∈ s (.lSymbs l.id)) (inSecond : a ∈ s (.lSymbs l'.id)) : l' = l := by
  have apart := List.pairwise_iff_getElem.mp exclusive
  obtain ⟨i, inRange, here⟩ := List.getElem_of_mem member
  obtain ⟨j, inRange', here'⟩ := List.getElem_of_mem member'
  rcases Nat.lt_trichotomy i j with less | same | greater
  · have disjoint := apart i j inRange inRange' less
    rw [here, here'] at disjoint
    exact absurd inSecond (Finset.disjoint_left.mp disjoint inFirst)
  · cases same
    exact congrArg Prod.fst (here'.symm.trans here)
  · have disjoint := apart j i inRange' inRange greater
    rw [here, here'] at disjoint
    exact absurd inFirst (Finset.disjoint_left.mp disjoint inSecond)

end AckFormal.LLgen.Solved
