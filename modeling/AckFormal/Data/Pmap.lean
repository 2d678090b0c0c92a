import Mathlib.Data.List.Nodup

/-!
# Pair maps

`struct pmap` of the data module is an array of pairs that is searched from the
front.  A pair map may hold several pairs with the same left or the same right
element; only `pmap_put` looks for the left element first.
-/

namespace AckFormal.Data.Pmap

open List (mem_cons_of_mem mem_cons_self)

variable {α β : Type}

/-- `pmap_put`: the right element of the first pair with this left element is
replaced; without one the pair is appended. -/
def put [DecidableEq α] : List (α × β) → α → β → List (α × β)
  | [], left, right => [(left, right)]
  | node :: map, left, right =>
    if node.1 = left then (node.1, right) :: map else node :: put map left right

def add [DecidableEq α] [DecidableEq β] (map : List (α × β)) (left : α) (right : β) :
    List (α × β) :=
  if (left, right) ∈ map then map else map ++ [(left, right)]

def remove [DecidableEq α] [DecidableEq β] (map : List (α × β)) (left : α) (right : β) :
    List (α × β) :=
  map.erase (left, right)

def findleft [DecidableEq α] : List (α × β) → α → Option β
  | [], _ => none
  | node :: map, left => if node.1 = left then some node.2 else findleft map left

def findright [DecidableEq β] : List (α × β) → β → Option α
  | [], _ => none
  | node :: map, right => if node.2 = right then some node.1 else findright map right

/-! ## Searching -/

section

variable [DecidableEq α]

theorem findleft_nil (left : α) : findleft ([] : List (α × β)) left = none := rfl

theorem findleft_cons (node : α × β) (map : List (α × β)) (left : α) :
    findleft (node :: map) left = if node.1 = left then some node.2 else findleft map left := rfl

theorem put_cons (node : α × β) (map : List (α × β)) (left : α) (right : β) :
    put (node :: map) left right =
      if node.1 = left then (node.1, right) :: map else node :: put map left right := rfl

variable {map : List (α × β)} {left : α}

theorem mem_of_findleft {right : β} (found : findleft map left = some right) :
    (left, right) ∈ map := by
  induction map with
  | nil => cases found
  | cons node map ih =>
    rw [findleft_cons] at found
    split at found
    next same =>
      cases found
      rw [← same]
      exact mem_cons_self
    next => exact mem_cons_of_mem node (ih found)

theorem findleft_eq_none : findleft map left = none ↔ ∀ right, (left, right) ∉ map := by
  induction map with
  | nil => simp [findleft_nil]
  | cons node map ih =>
    rw [findleft_cons]
    constructor
    · intro absent right member
      split at absent
      next => cases absent
      next differs =>
        cases member with
        | head => exact differs rfl
        | tail _ member => exact ih.mp absent right member
    · intro absent
      have differs : node.1 ≠ left := by
        intro same
        apply absent node.2
        rw [← same]
        exact mem_cons_self
      rw [if_neg differs]
      apply ih.mpr
      intro right member
      exact absent right (mem_cons_of_mem node member)

theorem findleft_isSome : (findleft map left).isSome ↔ ∃ right, (left, right) ∈ map := by
  rw [Option.isSome_iff_ne_none, Ne, findleft_eq_none]
  simp

end

section

variable [DecidableEq β]

theorem findright_nil (right : β) : findright ([] : List (α × β)) right = none := rfl

theorem findright_cons (node : α × β) (map : List (α × β)) (right : β) :
    findright (node :: map) right =
      if node.2 = right then some node.1 else findright map right := rfl

theorem mem_of_findright {map : List (α × β)} {left : α} {right : β}
    (found : findright map right = some left) : (left, right) ∈ map := by
  induction map with
  | nil => cases found
  | cons node map ih =>
    rw [findright_cons] at found
    split at found
    next same =>
      cases found
      rw [← same]
      exact mem_cons_self
    next => exact mem_cons_of_mem node (ih found)

theorem findright_eq_none {map : List (α × β)} {right : β} :
    findright map right = none ↔ ∀ left, (left, right) ∉ map := by
  induction map with
  | nil => simp [findright_nil]
  | cons node map ih =>
    rw [findright_cons]
    constructor
    · intro absent left member
      split at absent
      next => cases absent
      next differs =>
        cases member with
        | head => exact differs rfl
        | tail _ member => exact ih.mp absent left member
    · intro absent
      have differs : node.2 ≠ right := by
        intro same
        apply absent node.1
        rw [← same]
        exact mem_cons_self
      rw [if_neg differs]
      apply ih.mpr
      intro left member
      exact absent left (mem_cons_of_mem node member)

end

/-! ## Changing -/

variable [DecidableEq α] [DecidableEq β]

variable {map : List (α × β)} {left : α} {right other : β} {node : α × β}

theorem mem_add : node ∈ add map left right ↔ node ∈ map ∨ node = (left, right) := by
  unfold add
  split
  next present =>
    constructor
    · intro member
      exact Or.inl member
    · intro member
      cases member with
      | inl member => exact member
      | inr same => exact same ▸ present
  next => rw [List.mem_append, List.mem_singleton]

theorem mem_of_mem_remove (member : node ∈ remove map left right) : node ∈ map :=
  List.mem_of_mem_erase member

theorem mem_remove_of_ne (differs : node ≠ (left, right)) :
    node ∈ remove map left right ↔ node ∈ map :=
  List.mem_erase_of_ne differs

theorem add_of_not_mem (absent : (left, right) ∉ map) :
    add map left right = map ++ [(left, right)] :=
  if_neg absent

theorem add_of_mem (present : (left, right) ∈ map) : add map left right = map :=
  if_pos present

theorem findleft_remove_of_ne {other : α} (differs : other ≠ left) :
    findleft (remove map left right) other = findleft map other := by
  induction map with
  | nil => rfl
  | cons node map ih =>
    unfold remove at ih ⊢
    rw [List.erase_cons]
    split
    next same =>
      rw [beq_iff_eq] at same
      rw [findleft_cons, if_neg]
      rw [same]
      exact differs.symm
    next => rw [findleft_cons, findleft_cons, ih]

theorem findleft_remove_self (unique : (map.map Prod.fst).Nodup)
    (found : findleft map left = some right) : findleft (remove map left right) left = none := by
  rw [findleft_eq_none]
  intro other member
  have inMap := mem_of_mem_remove member
  have same : other = right :=
    congrArg Prod.snd (List.inj_on_of_nodup_map unique inMap (mem_of_findleft found) rfl)
  subst same
  have nodup := List.Nodup.of_map Prod.fst unique
  exact (List.Nodup.mem_erase_iff nodup).mp member |>.1 rfl

omit [DecidableEq β] in
theorem put_of_none (right : β) (absent : findleft map left = none) :
    put map left right = map ++ [(left, right)] := by
  induction map with
  | nil => rfl
  | cons node map ih =>
    rw [findleft_cons] at absent
    split at absent
    next => cases absent
    next differs => rw [put_cons, if_neg differs, ih absent, List.cons_append]

omit [DecidableEq β] in
theorem findleft_put (map : List (α × β)) (left : α) (right : β) (key : α) :
    findleft (put map left right) key = if left = key then some right else findleft map key := by
  induction map with
  | nil => rfl
  | cons node map ih =>
    rw [put_cons]
    by_cases same : node.1 = left
    · rw [if_pos same, findleft_cons, findleft_cons, same]
      split
      next => rfl
      next => rfl
    · rw [if_neg same, findleft_cons, findleft_cons, ih]
      by_cases here : node.1 = key
      · rw [if_pos here, if_pos here, if_neg]
        rintro rfl
        exact same here
      · rw [if_neg here, if_neg here]

omit [DecidableEq β] in
theorem put_of_some (present : findleft map left = some right) : put map left right = map := by
  induction map with
  | nil => cases present
  | cons node map ih =>
    rw [findleft_cons] at present
    split at present
    next same =>
      cases present
      rw [put_cons, if_pos same]
    next differs => rw [put_cons, if_neg differs, ih present]

omit [DecidableEq β] in
theorem mem_put_self (map : List (α × β)) (left : α) (right : β) :
    (left, right) ∈ put map left right := by
  induction map with
  | nil => exact mem_cons_self
  | cons node map ih =>
    rw [put_cons]
    split
    next same =>
      rw [same]
      exact mem_cons_self
    next => exact mem_cons_of_mem node ih

omit [DecidableEq β] in
theorem exists_mem_put {key : α} {value : β} (member : (key, value) ∈ map) (left : α) (right : β) :
    ∃ value, (key, value) ∈ put map left right := by
  induction map with
  | nil => cases member
  | cons node map ih =>
    rw [put_cons]
    split
    next same =>
      cases member with
      | head => exact ⟨right, mem_cons_self⟩
      | tail _ member => exact ⟨value, mem_cons_of_mem _ member⟩
    next =>
      cases member with
      | head => exact ⟨value, mem_cons_self⟩
      | tail _ member =>
        obtain ⟨found, foundMember⟩ := ih member
        exact ⟨found, mem_cons_of_mem _ foundMember⟩

end AckFormal.Data.Pmap
