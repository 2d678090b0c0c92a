import Mathlib.Algebra.BigOperators.Group.List.Basic
import Mathlib.Algebra.Ring.Nat

/-!
# Texts with insertions

A text is a list of symbols and of insertions of other texts.  Its expansion replaces
every insertion by the expansion of the text that it names.
-/

namespace AckFormal.Lib

inductive Item (α ι : Type*) where
  | text (a : α)
  | insert (i : ι)

section Expansion

variable {α ι : Type*}

def flat (X : ι → List α) : List (Item α ι) → List α
  | [] => []
  | .text a :: rest => a :: flat X rest
  | .insert i :: rest => X i ++ flat X rest

variable {items main : List (Item α ι)} {ids : List ι}

@[simp] theorem flat_nil (X : ι → List α) : flat X [] = [] := rfl

@[simp] theorem flat_text (X : ι → List α) (a : α) (rest : List (Item α ι)) :
    flat X (.text a :: rest) = a :: flat X rest := rfl

@[simp] theorem flat_insert (X : ι → List α) (i : ι) (rest : List (Item α ι)) :
    flat X (.insert i :: rest) = X i ++ flat X rest := rfl

@[simp] theorem flat_append (X : ι → List α) (first rest : List (Item α ι)) :
    flat X (first ++ rest) = flat X first ++ flat X rest := by
  induction first with
  | nil => rfl
  | cons item first ih =>
    cases item with
    | text a => simp [ih]
    | insert i => simp [ih]

@[simp] theorem flat_texts (X : ι → List α) (bytes : List α) :
    flat X (bytes.map Item.text) = bytes := by
  induction bytes with
  | nil => rfl
  | cons a bytes ih => simp [ih]

theorem flat_congr {X Y : ι → List α} (same : ∀ i, .insert i ∈ items → X i = Y i) :
    flat X items = flat Y items := by
  induction items with
  | nil => rfl
  | cons item rest ih =>
    have later := ih fun i member => same i (List.mem_cons_of_mem item member)
    cases item with
    | text a => rw [flat_text, flat_text, later]
    | insert i => rw [flat_insert, flat_insert, later, same i List.mem_cons_self]

def inserts : List (Item α ι) → List ι
  | [] => []
  | .text _ :: rest => inserts rest
  | .insert i :: rest => i :: inserts rest

def texts : List (Item α ι) → Nat
  | [] => 0
  | .text _ :: rest => texts rest + 1
  | .insert _ :: rest => texts rest

theorem mem_inserts {i : ι} : i ∈ inserts items ↔ .insert i ∈ items := by
  induction items with
  | nil => simp [inserts]
  | cons item rest ih => cases item <;> simp [inserts, ih]

theorem inserts_append (first rest : List (Item α ι)) :
    inserts (first ++ rest) = inserts first ++ inserts rest := by
  induction first with
  | nil => rfl
  | cons item first ih => cases item <;> simp [inserts, ih]

theorem flat_length (X : ι → List α) (items : List (Item α ι)) :
    (flat X items).length = texts items + ((inserts items).map fun i => (X i).length).sum := by
  induction items with
  | nil => rfl
  | cons item rest ih =>
    cases item with
    | text a =>
      simp only [flat_text, List.length_cons, texts, inserts]
      omega
    | insert i =>
      simp only [flat_insert, List.length_append, texts, inserts, ih, List.map_cons, List.sum_cons]
      omega

inductive Expands (body : ι → List (Item α ι)) : List (Item α ι) → List α → Prop where
  | nil : Expands body [] []
  | text {a : α} {rest : List (Item α ι)} {out : List α} (later : Expands body rest out) :
      Expands body (.text a :: rest) (a :: out)
  | insert {i : ι} {rest : List (Item α ι)} {first out : List α}
      (inner : Expands body (body i) first) (later : Expands body rest out) :
      Expands body (.insert i :: rest) (first ++ out)

def Acyclic (body : ι → List (Item α ι)) : Prop :=
  ∃ rank : ι → Nat, ∀ i j, .insert j ∈ body i → rank j < rank i

def Solves (body : ι → List (Item α ι)) (X : ι → List α) : Prop :=
  ∀ i, X i = flat X (body i)

variable {body pre rest : ι → List (Item α ι)} {X Y : ι → List α}

def expandTo (body : ι → List (Item α ι)) : Nat → ι → List α
  | 0, _ => []
  | depth + 1, i => flat (expandTo body depth) (body i)

theorem Acyclic.solution (acyclic : Acyclic body) : ∃ X, Solves body X := by
  obtain ⟨rank, lower⟩ := acyclic
  have enough : ∀ n i, rank i < n → ∀ m, rank i < m → expandTo body n i = expandTo body m i := by
    intro n
    induction n with
    | zero =>
      intro i below
      exact absurd below (Nat.not_lt_zero _)
    | succ n ih =>
      intro i below m belowM
      obtain ⟨m, rfl⟩ := Nat.exists_eq_succ_of_ne_zero (Nat.ne_of_gt (Nat.zero_lt_of_lt belowM))
      apply flat_congr
      intro j member
      have step := lower i j member
      exact ih j (by omega) m (by omega)
  refine ⟨fun i => expandTo body (rank i + 1) i, ?_⟩
  intro i
  apply flat_congr
  intro j member
  exact enough (rank i) j (lower i j member) (rank j + 1) (Nat.lt_succ_self _)

theorem Acyclic.unique (acyclic : Acyclic body) (solvesX : Solves body X) (solvesY : Solves body Y) :
    X = Y := by
  obtain ⟨rank, lower⟩ := acyclic
  have below : ∀ n i, rank i < n → X i = Y i := by
    intro n
    induction n with
    | zero =>
      intro i none
      exact absurd none (Nat.not_lt_zero _)
    | succ n ih =>
      intro i bound
      rw [solvesX i, solvesY i]
      apply flat_congr
      intro j member
      have step := lower i j member
      exact ih j (by omega)
  funext i
  exact below (rank i + 1) i (Nat.lt_succ_self _)

theorem Acyclic.mono (acyclic : Acyclic body) (fewer : ∀ i j, .insert j ∈ pre i → .insert j ∈ body i) :
    Acyclic pre := by
  obtain ⟨rank, lower⟩ := acyclic
  exact ⟨rank, fun i j member => lower i j (fewer i j member)⟩

theorem Expands.eq_flat {out : List α} (expands : Expands body items out) (solves : Solves body X) :
    out = flat X items := by
  induction expands with
  | nil => rfl
  | text _ ih => rw [flat_text, ih]
  | @insert i _ _ _ _ _ ihInner ihLater => rw [flat_insert, ← ihLater, solves i, ← ihInner]

/-- Where the insertions have no cycle the flat text is the expansion. -/
theorem expands_flat (acyclic : Acyclic body) (solves : Solves body X) (items : List (Item α ι)) :
    Expands body items (flat X items) := by
  obtain ⟨rank, lower⟩ := acyclic
  have below : ∀ n (items : List (Item α ι)), (∀ i, .insert i ∈ items → rank i < n) →
      Expands body items (flat X items) := by
    intro n
    induction n with
    | zero =>
      intro items none
      induction items with
      | nil => exact Expands.nil
      | cons item items ih =>
        have later := ih fun i member => none i (List.mem_cons_of_mem item member)
        cases item with
        | text a => exact Expands.text later
        | insert i => exact absurd (none i List.mem_cons_self) (Nat.not_lt_zero _)
    | succ n ihDepth =>
      intro items bound
      induction items with
      | nil => exact Expands.nil
      | cons item items ih =>
        have later := ih fun i member => bound i (List.mem_cons_of_mem item member)
        cases item with
        | text a => exact Expands.text later
        | insert i =>
          have rankI := bound i List.mem_cons_self
          rw [flat_insert, solves i]
          refine Expands.insert (ihDepth (body i) ?_) later
          intro j member
          have step := lower i j member
          omega
  obtain ⟨n, bound⟩ : ∃ n, ∀ i, .insert i ∈ items → rank i < n := by
    induction items with
    | nil => exact ⟨0, fun i member => absurd member List.not_mem_nil⟩
    | cons item items ih =>
      obtain ⟨n, bound⟩ := ih
      cases item with
      | text a =>
        refine ⟨n, fun i member => ?_⟩
        rcases List.mem_cons.mp member with same | later
        · cases same
        · exact bound i later
      | insert j =>
        refine ⟨max n (rank j + 1), fun i member => ?_⟩
        rcases List.mem_cons.mp member with same | later
        · cases same
          omega
        · have := bound i later
          omega
  exact below n items bound

/-! ## Texts that are cut off

Every text is inserted once.  If some of the texts are cut off, the expansion is still the
same if and only if nothing is lost: what comes after each cut expands to nothing. -/

theorem flat_once (once : (inserts main ++ ids.flatMap fun i => inserts (body i)).Perm ids) :
    (flat Y main).length + (ids.map fun i => (flat Y (body i)).length).sum =
      texts main + (ids.map fun i => texts (body i)).sum + (ids.map fun i => (Y i).length).sum := by
  have total := (once.map fun i => (Y i).length).sum_eq
  have bodies : ∀ list : List ι, (list.map fun i => (flat Y (body i)).length).sum =
      (list.map fun i => texts (body i)).sum +
        ((list.flatMap fun i => inserts (body i)).map fun i => (Y i).length).sum := by
    intro list
    induction list with
    | nil => rfl
    | cons i list ih =>
      simp only [List.map_cons, List.sum_cons, List.flatMap_cons, List.map_append,
        List.sum_append, flat_length]
      simp only [flat_length] at ih
      omega
  rw [List.map_append, List.sum_append] at total
  rw [bodies, flat_length]
  omega

theorem cut_length (split : ∀ i, pre i ++ rest i = body i)
    (once : (inserts main ++ ids.flatMap fun i => inserts (body i)).Perm ids)
    (solvesX : Solves body X) (solvesY : Solves pre Y) :
    (flat Y main).length + (ids.map fun i => (flat Y (rest i)).length).sum =
      (flat X main).length := by
  have totalX := flat_once (Y := X) once
  have totalY := flat_once (Y := Y) once
  have wholeX : ∀ i, flat X (body i) = X i := fun i => (solvesX i).symm
  have wholeY : ∀ i, (flat Y (body i)).length = (Y i).length + (flat Y (rest i)).length := by
    intro i
    rw [← split i, flat_append, List.length_append, ← solvesY i]
  simp only [wholeX] at totalX
  simp only [wholeY, List.sum_map_add] at totalY
  omega

theorem cut_flat_iff (acyclic : Acyclic body) (split : ∀ i, pre i ++ rest i = body i)
    (others : ∀ i, i ∉ ids → body i = [])
    (once : (inserts main ++ ids.flatMap fun i => inserts (body i)).Perm ids)
    (solvesX : Solves body X) (solvesY : Solves pre Y) :
    flat Y main = flat X main ↔ ∀ i, flat X (rest i) = [] := by
  have outside : ∀ i, i ∉ ids → pre i = [] ∧ rest i = [] := by
    intro i outside
    have none := split i
    rw [others i outside] at none
    exact List.append_eq_nil_iff.mp none
  constructor
  · intro same
    have lost : (ids.map fun i => (flat Y (rest i)).length).sum = 0 := by
      have total := cut_length split once solvesX solvesY
      rw [same] at total
      omega
    have nothing : ∀ i, flat Y (rest i) = [] := by
      intro i
      by_cases member : i ∈ ids
      · have zero := List.sum_eq_zero_iff_forall_eq_nat.mp lost
        exact List.length_eq_zero_iff.mp (zero _ (List.mem_map_of_mem member))
      · rw [(outside i member).2]
        rfl
    have solves : Solves body Y := by
      intro i
      rw [← split i, flat_append, nothing i, List.append_nil]
      exact solvesY i
    rw [acyclic.unique solvesX solves]
    exact nothing
  · intro nothing
    have solves : Solves pre X := by
      intro i
      conv_lhs => rw [solvesX i, ← split i, flat_append, nothing i, List.append_nil]
    have acyclicPre : Acyclic pre := acyclic.mono fun i j member => by
      rw [← split i]
      exact List.mem_append_left _ member
    rw [acyclicPre.unique solves solvesY]

end Expansion

end AckFormal.Lib
