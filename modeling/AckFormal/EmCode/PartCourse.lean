import AckFormal.EmCode.InsertClose

/-!
# What is held and the course of the calls

The counts of the course are the lengths of what is held.  The calls can be finished if
and only if no part that is not there yet is inserted in a part while the output is in
sequence, no part has the id 0 when the output is not, and the store is large enough.
-/

namespace AckFormal.EmCode

open Led (Byte)
open Function (update update_of_ne update_self)
open Lib

/-- What is held after some calls: the texts, the course, and the parts that have been
begun. -/
structure Follows (t : Text) (c : Course) (b : List Nat) (h : Held) : Prop where
  sequential : c.sequential = h.sequential
  open_ : c.open_ = t.open_
  levels : h.levels = t.open_ ++ if h.sequential then [] else [0]
  table : ∀ n, n ∈ h.table ↔ n ∈ b ∨ (h.sequential = false ∧ n = 0)
  begun : ∀ n, n ∈ c.begun ↔ n ∈ b
  size : h.sequential = true → ∀ n, c.size n = (h.bytes n).length
  direct : c.direct = h.written.length
  stored : c.stored = h.stored
  plain : h.Plain
  ids : h.sequential = false → 0 ∉ b
  nothing : c.direct = 0 → c.stored = 0 → ∀ k, texts (t.body k) = 0
  room : h.stored ≤ 2 ^ 31
  inside : ∀ n ∈ t.open_, n ∈ b
  outside : ∀ n, n ∉ h.table → h.held n = []
  absent : ∀ n, n ∉ b → t.part n = []

theorem follows_start : Follows Text.start Course.start [] Held.start where
  sequential := rfl
  open_ := rfl
  levels := rfl
  table := by simp [Held.start]
  begun := by simp [Course.start]
  size := fun _ _ => rfl
  direct := rfl
  stored := rfl
  plain := fun _ _ => rfl
  ids := by simp
  nothing := fun _ _ _ => rfl
  room := Nat.zero_le _
  inside := by simp [Text.start]
  outside := fun _ _ => rfl
  absent := fun _ _ => rfl

section Step

variable {t : Text} {c : Course} {b : List Nat} {h h' : Held} {n : Nat}

theorem texts_append {α ι : Type*} (first rest : List (Item α ι)) :
    texts (first ++ rest) = texts first + texts rest := by
  induction first with
  | nil => simp [texts]
  | cons item first ih =>
    cases item with
    | text a =>
      simp only [List.cons_append, texts]
      omega
    | insert i => exact ih

theorem Text.add_here (t : Text) (item : Item Byte Nat) :
    (t.add item).body t.open_.head? = t.body t.open_.head? ++ [item] :=
  update_self _ _ _

theorem Text.add_others (t : Text) (item : Item Byte Nat) {k : Option Nat}
    (other : k ≠ t.open_.head?) : (t.add item).body k = t.body k :=
  update_of_ne other _ _

variable {item : Item Byte Nat} {bytes : List Byte} {m : Nat} {rest : List Nat}

theorem Text.add_main (t : Text) (item : Item Byte Nat) (main : t.open_.head? = none) :
    (t.add item).body none = t.body none ++ [item] ∧ ∀ n, (t.add item).part n = t.part n := by
  have here := t.add_here item
  rw [main] at here
  exact ⟨here, fun n => t.add_others item (by rw [main]; simp)⟩

theorem Text.add_part (t : Text) (item : Item Byte Nat) (first : t.open_.head? = some m) :
    (t.add item).part m = t.part m ++ [item] ∧ (t.add item).body none = t.body none ∧
      ∀ n, n ≠ m → (t.add item).part n = t.part n := by
  have here := t.add_here item
  rw [first] at here
  exact ⟨here, t.add_others item (by rw [first]; simp),
    fun n other => t.add_others item (by rw [first]; simpa using other)⟩

section

variable (follows : Follows t c b h)
include follows

theorem Follows.absent_add (item : Item Byte Nat) {n : Nat}
    (absent : n ∉ b) : (t.add item).part n = [] := by
  have other : some n ≠ t.open_.head? := by
    intro first
    exact absent (follows.inside n (List.mem_of_head? first.symm))
  exact (Text.add_others t item other).trans (follows.absent n absent)

theorem Follows.nothing_add (none : texts [item] = 0)
    (direct : c.direct = 0) (stored : c.stored = 0) (k : Option Nat) :
    texts ((t.add item).body k) = 0 := by
  by_cases here : k = t.open_.head?
  · subst here
    rw [Text.add_here, texts_append, follows.nothing direct stored, none]
  · rw [Text.add_others t item here]
    exact follows.nothing direct stored k

/-- Bytes for the main text, while the output is in sequence. -/
theorem Follows.more_direct (now : h.sequential = true)
    (top : t.open_ = []) (fits : texts [item] ≤ bytes.length) :
    Follows (t.add item) (c.add bytes.length) b { h with written := h.written ++ bytes } := by
  have added : c.add bytes.length = { c with direct := c.direct + bytes.length } := by
    have open_ : c.open_ = [] := follows.open_.trans top
    have sequential : c.sequential = true := follows.sequential.trans now
    unfold Course.add
    rw [open_]
    exact if_pos sequential
  rw [added]
  exact
    { sequential := follows.sequential
      open_ := follows.open_
      levels := follows.levels
      table := follows.table
      begun := follows.begun
      size := follows.size
      direct := by rw [List.length_append, follows.direct]
      stored := follows.stored
      plain := follows.plain
      ids := follows.ids
      nothing := by
        intro direct stored k
        dsimp only at direct stored
        exact follows.nothing_add (by omega) (by omega) stored k
      room := follows.room
      inside := follows.inside
      outside := follows.outside
      absent := fun _ => follows.absent_add item }

/-- Text that is not written is for the main text, which is part 0, or for the part that
is being defined. -/
theorem Follows.position (levels : h.levels = m :: rest) :
    (t.open_ = [] ∧ h.sequential = false ∧ m = 0) ∨ (t.open_.head? = some m ∧ m ∈ b) := by
  have all := follows.levels
  rw [levels] at all
  cases top : t.open_ with
  | nil =>
    rw [top] at all
    cases sequential : h.sequential with
    | true =>
      rw [sequential] at all
      cases all
    | false =>
      rw [sequential] at all
      cases all
      exact Or.inl ⟨rfl, rfl, rfl⟩
  | cons k outer =>
    rw [top] at all
    cases all
    exact Or.inr ⟨rfl, follows.inside m (by rw [top]; exact List.mem_cons_self)⟩

/-- Nothing is being defined, and the output is in sequence. -/
theorem Follows.sequential_of_levels (levels : h.levels = []) :
    h.sequential = true ∧ t.open_ = [] := by
  have all := follows.levels
  rw [levels] at all
  obtain ⟨top, base⟩ := List.append_eq_nil_iff.mp all.symm
  refine ⟨?_, top⟩
  by_contra later
  rw [if_neg later] at base
  cases base

section

variable (levels : h.levels = m :: rest)
include levels

theorem Follows.added (bytes : Nat) :
    (c.add bytes).sequential = c.sequential ∧ (c.add bytes).open_ = c.open_ ∧
      (c.add bytes).begun = c.begun ∧ (c.add bytes).direct = c.direct ∧
      (c.add bytes).stored = c.stored + bytes ∧
      (h.sequential = true →
        (c.add bytes).size = update c.size m (c.size m + bytes)) := by
  unfold Course.add
  rw [follows.open_]
  rcases follows.position levels with ⟨top, later, _⟩ | ⟨first, _⟩
  · rw [top, follows.sequential, later]
    exact ⟨rfl, rfl, rfl, rfl, rfl, by simp⟩
  · obtain ⟨outer, top⟩ := List.head?_eq_some_iff.mp first
    rw [top]
    exact ⟨rfl, rfl, rfl, rfl, rfl, fun _ => rfl⟩

theorem Follows.listed :
    m ∈ h.table := by
  rw [follows.table]
  rcases follows.position levels with ⟨_, later, zero⟩ | ⟨_, begun⟩
  · exact Or.inr ⟨later, zero⟩
  · exact Or.inl begun

/-- Bytes for a part, or for the main text after the output has stopped being in sequence. -/
theorem Follows.more_stored
    (fits : texts [item] ≤ bytes.length) (room : h.stored + bytes.length ≤ 2 ^ 31) :
    Follows (t.add item) (c.add bytes.length) b { h with
      held := update h.held m (h.held m ++ bytes.map .text),
      stored := h.stored + bytes.length } := by
  have inTable : m ∈ h.table := follows.listed levels
  obtain ⟨sequential, open_, begun, direct, stored, size⟩ := follows.added levels bytes.length
  exact
    { sequential := sequential.trans follows.sequential
      open_ := open_.trans follows.open_
      levels := follows.levels
      table := follows.table
      begun := by
        rw [begun]
        exact follows.begun
      size := by
        intro now k
        rw [size now]
        by_cases same : k = m
        · subst same
          rw [update_self, follows.size now k]
          simp [Held.bytes]
        · rw [update_of_ne same, follows.size now k, Held.bytes, Held.bytes]
          dsimp only
          rw [update_of_ne same]
      direct := direct.trans follows.direct
      stored := by rw [stored, follows.stored]
      plain := by
        intro now k
        dsimp only
        by_cases same : k = m
        · subst same
          rw [update_self, inserts_append, follows.plain now k, inserts_texts]
          rfl
        · rw [update_of_ne same]
          exact follows.plain now k
      ids := follows.ids
      nothing := by
        intro direct' stored' k
        rw [direct] at direct'
        exact follows.nothing_add (by omega) direct' (by omega) k
      room := room
      inside := follows.inside
      outside := by
        intro k absent
        have other : k ≠ m := by
          rintro rfl
          exact absent inTable
        dsimp only
        rw [update_of_ne other]
        exact follows.outside k absent
      absent := fun _ => follows.absent_add item }

end

theorem Follows.more (fits : texts [item] ≤ bytes.length)
    (ran : bytes.foldlM Held.put h = some h') : Follows (t.add item) (c.add bytes.length) b h' := by
  cases levels : h.levels with
  | nil =>
    rw [Held.put_all_main bytes levels] at ran
    cases ran
    obtain ⟨now, top⟩ := follows.sequential_of_levels levels
    exact follows.more_direct now top fits
  | cons m rest =>
    rw [Held.put_all_part bytes levels follows.room] at ran
    split at ran
    · rename_i room
      cases ran
      exact follows.more_stored levels fits room
    · cases ran

theorem Follows.clear (n : Nat) :
    Follows t { c with size := update c.size n 0 } b
      { h with held := update h.held n [] } where
  sequential := follows.sequential
  open_ := follows.open_
  levels := follows.levels
  table := follows.table
  begun := follows.begun
  size := by
    intro now k
    dsimp only
    by_cases same : k = n
    · subst same
      rw [update_self, Held.bytes]
      dsimp only
      rw [update_self]
      rfl
    · rw [update_of_ne same, Held.bytes]
      dsimp only
      rw [update_of_ne same]
      exact follows.size now k
  direct := follows.direct
  stored := follows.stored
  plain := by
    intro now k
    dsimp only
    by_cases same : k = n
    · subst same
      rw [update_self]
      rfl
    · rw [update_of_ne same]
      exact follows.plain now k
  ids := follows.ids
  nothing := follows.nothing
  room := follows.room
  inside := follows.inside
  outside := by
    intro k absent
    dsimp only
    by_cases same : k = n
    · subst same
      exact update_self _ _ _
    · rw [update_of_ne same]
      exact follows.outside k absent
  absent := follows.absent

theorem Follows.keep (levels : h.levels = m :: rest)
    (later : h.sequential = false) (n : Nat) :
    Follows (t.add (.insert n)) c b
      { h with held := update h.held m (h.held m ++ [.insert n]) } where
  sequential := follows.sequential
  open_ := follows.open_
  levels := follows.levels
  table := follows.table
  begun := follows.begun
  size := by
    intro now
    rw [later] at now
    cases now
  direct := follows.direct
  stored := follows.stored
  plain := by
    intro now
    rw [later] at now
    cases now
  ids := follows.ids
  nothing := fun direct stored => follows.nothing_add rfl direct stored
  room := follows.room
  inside := follows.inside
  outside := by
    intro k absent
    have other : k ≠ m := by
      rintro rfl
      exact absent (follows.listed levels)
    dsimp only
    rw [update_of_ne other]
    exact follows.outside k absent
  absent := fun _ => follows.absent_add _

theorem Follows.stop (now : h.sequential = true)
    (levels : h.levels = []) (free : 0 ∉ h.table) :
    Follows t { c with sequential := false } b
      { h with sequential := false, table := 0 :: h.table, levels := [0] } := by
  have top := (follows.sequential_of_levels levels).2
  exact
    { sequential := rfl
      open_ := follows.open_
      levels := by
        rw [top]
        rfl
      table := by
        intro n
        rw [List.mem_cons, follows.table n, now]
        simp [or_comm]
      begun := follows.begun
      size := by simp
      direct := follows.direct
      stored := follows.stored
      plain := by simp [Held.Plain]
      ids := fun _ member => free ((follows.table 0).mpr (Or.inl member))
      nothing := follows.nothing
      room := follows.room
      inside := follows.inside
      outside := fun n absent => follows.outside n fun member =>
        absent (List.mem_cons_of_mem 0 member)
      absent := follows.absent }

/-- A part is begun. -/
theorem Follows.beginpart (ran : h.call (.beginpart n) = some h') :
    Follows (t.call (.beginpart n)) (c.call (.beginpart n)) (b ++ EmCode.begun [.beginpart n])
      h' := by
  unfold Held.call at ran
  dsimp only at ran
  split at ran
  · cases ran
  · rename_i absent
    cases ran
    have fresh : ∀ m, m ∈ b ++ EmCode.begun [.beginpart n] ↔ m = n ∨ m ∈ b := by
      intro m
      simp [EmCode.begun, or_comm]
    exact
      { sequential := follows.sequential
        open_ := by
          show n :: c.open_ = n :: t.open_
          rw [follows.open_]
        levels := by
          rw [follows.levels]
          rfl
        table := by
          intro m
          rw [List.mem_cons, follows.table m, fresh m, or_assoc]
        begun := by
          intro m
          show m ∈ n :: c.begun ↔ _
          rw [List.mem_cons, follows.begun m, fresh m]
        size := follows.size
        direct := follows.direct
        stored := follows.stored
        plain := follows.plain
        ids := by
          intro later
          rw [fresh]
          rintro (rfl | member)
          · exact absent ((follows.table 0).mpr (Or.inr ⟨later, rfl⟩))
          · exact follows.ids later member
        nothing := follows.nothing
        room := follows.room
        inside := by
          intro m member
          rw [fresh]
          rcases List.mem_cons.mp member with rfl | outer
          · exact Or.inl rfl
          · exact Or.inr (follows.inside m outer)
        outside := fun m outside => follows.outside m fun member =>
          outside (List.mem_cons_of_mem n member)
        absent := by
          intro m outside
          rw [fresh] at outside
          exact follows.absent m fun member => outside (Or.inr member) }

/-- The part that was begun last ends. -/
theorem Follows.endpart {outer : List Nat} (opened : t.open_ = n :: outer)
    (ran : h.call (.endpart n) = some h') :
    Follows (t.call (.endpart n)) (c.call (.endpart n)) b h' := by
  have levels := follows.levels
  rw [opened, List.cons_append] at levels
  unfold Held.call at ran
  rw [levels] at ran
  dsimp only at ran
  rw [if_pos rfl] at ran
  cases ran
  exact
    { sequential := follows.sequential
      open_ := by
        show c.open_.tail = t.open_.tail
        rw [follows.open_]
      levels := by
        show _ = t.open_.tail ++ _
        rw [opened]
        rfl
      table := follows.table
      begun := follows.begun
      size := follows.size
      direct := follows.direct
      stored := follows.stored
      plain := follows.plain
      ids := follows.ids
      nothing := follows.nothing
      room := follows.room
      inside := fun m member => follows.inside m (List.mem_of_mem_tail member)
      outside := follows.outside
      absent := follows.absent }

/-- A part is inserted: put out at once, or kept as an item of its place. -/
theorem Follows.insertpart (ran : h.call (.insertpart n) = some h') :
    Follows (t.call (.insertpart n)) (c.call (.insertpart n)) b h' := by
  unfold Held.call at ran
  dsimp only at ran
  unfold Course.call
  dsimp only
  rw [follows.sequential]
  split at ran
  · rename_i now
    have known : n ∈ c.begun ↔ n ∈ h.table := by
      rw [follows.begun, follows.table, now]
      simp
    rw [if_pos now]
    split at ran
    · rename_i listed
      rw [if_pos (known.mpr listed)]
      obtain ⟨h₁, moved, rfl⟩ := Option.map_eq_some_iff.mp ran
      have more : Follows (t.add (.insert n)) (c.add (h.bytes n).length) b h₁ :=
        follows.more (Nat.zero_le _) moved
      rw [← follows.size now n] at more
      exact more.clear n
    · rename_i absent
      rw [if_neg fun member => absent (known.mp member)]
      split at ran
      · rename_i free
        cases ran
        exact (follows.stop now free.1 free.2).keep rfl rfl n
      · cases ran
  · rename_i later
    rw [if_neg later]
    split at ran
    · rename_i m rest levels
      cases ran
      exact follows.keep levels (by simpa using later) n
    · cases ran

end

/-- One call of the code and of the course go together. -/
theorem Follows.call {call : Call} (follows : Follows t c b h)
    (nested : ∀ n, call = .endpart n → ∃ outer, t.open_ = n :: outer)
    (ran : h.call call = some h') :
    Follows (t.call call) (c.call call) (b ++ EmCode.begun [call]) h' := by
  cases call with
  | put a =>
    have ran' : [a].foldlM Held.put h = some h' := by
      rw [List.foldlM_cons]
      unfold Held.call at ran
      dsimp only at ran
      rw [ran]
      rfl
    have fits : texts [(Item.text a : Item Byte Nat)] ≤ [a].length := Nat.le_refl 1
    have more : Follows (t.add (.text a)) (c.add 1) b h' := follows.more fits ran'
    have same : b ++ EmCode.begun [.put a] = b := List.append_nil b
    rw [same]
    exact more
  | beginpart n => exact follows.beginpart ran
  | endpart n =>
    obtain ⟨outer, opened⟩ := nested n rfl
    have same : b ++ EmCode.begun [.endpart n] = b := List.append_nil b
    rw [same]
    exact follows.endpart opened ran
  | insertpart n =>
    have same : b ++ EmCode.begun [.insertpart n] = b := List.append_nil b
    rw [same]
    exact follows.insertpart ran

/-- A call has a result where nothing overflows and no identifier is in the way. -/
theorem Follows.call_some {call : Call} (follows : Follows t c b h)
    (nested : ∀ n, call = .endpart n → ∃ outer, t.open_ = n :: outer)
    (fresh : ∀ n, call = .beginpart n → n ∉ b)
    (outside : ∀ n, call = .insertpart n → c.sequential = true → n ∉ c.begun → c.open_ = [])
    (ids : (c.call call).sequential = true ∨ 0 ∉ b ++ EmCode.begun [call])
    (room : (c.call call).stored ≤ 2 ^ 31) : ∃ h', h.call call = some h' := by
  have stored := follows.stored
  cases call with
  | put a =>
    cases levels : h.levels with
    | nil => exact ⟨_, Held.put_main levels a⟩
    | cons m rest =>
      obtain ⟨_, _, _, _, more, _⟩ := follows.added levels 1
      have small : h.stored < 2 ^ 31 := by
        have total : (c.add 1).stored ≤ 2 ^ 31 := room
        omega
      exact ⟨_, (Held.put_part levels a).trans (if_pos small)⟩
  | beginpart n =>
    refine ⟨_, if_neg ?_⟩
    rw [follows.table]
    rintro (begun | ⟨later, rfl⟩)
    · exact fresh n rfl begun
    · rcases ids with now | free
      · have same : c.sequential = true := now
        rw [follows.sequential, later] at same
        cases same
      · exact free (List.mem_append_right _ List.mem_cons_self)
  | endpart n =>
    obtain ⟨outer, opened⟩ := nested n rfl
    have levels := follows.levels
    rw [opened, List.cons_append] at levels
    unfold Held.call
    rw [levels]
    exact ⟨_, if_pos rfl⟩
  | insertpart n =>
    unfold Course.call at ids room
    dsimp only at ids room
    rw [follows.sequential] at ids room
    unfold Held.call
    dsimp only
    by_cases now : h.sequential = true
    · have known : n ∈ c.begun ↔ n ∈ h.table := by
        rw [follows.begun, follows.table, now]
        simp
      rw [if_pos now] at ids room ⊢
      by_cases listed : n ∈ h.table
      · rw [if_pos (known.mpr listed)] at room
        rw [if_pos listed]
        cases levels : h.levels with
        | nil =>
          rw [Held.put_all_main _ levels]
          exact ⟨_, rfl⟩
        | cons m rest =>
          obtain ⟨_, _, _, _, more, _⟩ := follows.added levels (c.size n)
          dsimp only at room
          rw [Held.put_all_part _ levels follows.room, ← follows.size now n, if_pos (by omega)]
          exact ⟨_, rfl⟩
      · rw [if_neg fun member => listed (known.mp member)] at ids
        have top := outside n rfl (follows.sequential.trans now) fun member =>
          listed (known.mp member)
        rw [if_neg listed, if_pos]
        · exact ⟨_, rfl⟩
        · refine ⟨?_, ?_⟩
          · rw [follows.levels, ← follows.open_, top, if_pos now]
            rfl
          · rw [follows.table, now]
            rintro (begun | ⟨later, _⟩)
            · rcases ids with wrong | free
              · cases wrong
              · exact free (List.mem_append_left _ begun)
            · cases later
    · rw [if_neg now]
      have levels := follows.levels
      rw [if_neg now] at levels
      cases top : t.open_ with
      | nil =>
        rw [levels, top]
        exact ⟨_, rfl⟩
      | cons k outer =>
        rw [levels, top]
        exact ⟨_, rfl⟩

/-- A part that is not there yet is inserted in the main text. -/
theorem Follows.call_outside (follows : Follows t c b h) (now : c.sequential = true)
    (absent : n ∉ c.begun) (ran : h.call (.insertpart n) = some h') : c.open_ = [] := by
  rw [follows.sequential] at now
  have notListed : n ∉ h.table := by
    rw [follows.table, now, ← follows.begun]
    simp [absent]
  unfold Held.call at ran
  dsimp only at ran
  rw [if_pos now, if_neg notListed] at ran
  split at ran
  · rename_i free
    have levels := follows.levels
    rw [free.1] at levels
    rw [follows.open_]
    exact (List.append_eq_nil_iff.mp levels.symm).1
  · cases ran

end Step

/-! ## All calls -/

section Run

variable {t : Text} {c : Course} {b : List Nat} {h h' : Held} {calls : List Call}

theorem nested_call {call : Call} {rest : List Call} (nested : Nested t.open_ (call :: rest)) :
    Nested (t.call call).open_ rest ∧
      ∀ n, call = .endpart n → ∃ outer, t.open_ = n :: outer := by
  cases call with
  | put a =>
    exact ⟨nested, by simp⟩
  | insertpart n =>
    exact ⟨nested, by simp⟩
  | beginpart n =>
    exact ⟨nested, by simp⟩
  | endpart n =>
    obtain ⟨outer, opened, nested'⟩ := nested_endpart nested
    refine ⟨?_, ?_⟩
    · unfold Text.call
      rw [opened]
      exact nested'
    · intro m same
      cases same
      exact ⟨outer, opened⟩

theorem nested_after {rest : List Call} (nested : Nested t.open_ (calls ++ rest)) :
    Nested (calls.foldl Text.call t).open_ rest := by
  induction calls generalizing t with
  | nil => exact nested
  | cons call calls ih => exact ih (nested_call nested).1

theorem begun_cons (call : Call) (calls : List Call) :
    begun (call :: calls) = begun [call] ++ begun calls := by
  cases call <;> rfl

theorem Follows.run (rest : List Call) (follows : Follows t c b h)
    (nested : Nested t.open_ (calls ++ rest))
    (ran : calls.foldlM Held.call h = some h') :
    Follows (calls.foldl Text.call t) (calls.foldl Course.call c) (b ++ EmCode.begun calls) h' := by
  induction calls generalizing t c b h with
  | nil =>
    cases ran
    have same : b ++ EmCode.begun [] = b := List.append_nil b
    rw [same]
    exact follows
  | cons call calls ih =>
    obtain ⟨h₁, step, later⟩ := Option.bind_eq_some_iff.mp ran
    obtain ⟨nested', ends⟩ := nested_call nested
    rw [begun_cons, ← List.append_assoc]
    exact ih (follows.call ends step) nested' later

/-- The count of stored bytes only grows, and what is sequential was so before. -/
theorem course_mono (calls : List Call) (c : Course) :
    c.stored ≤ (calls.foldl Course.call c).stored ∧
      ((calls.foldl Course.call c).sequential = true → c.sequential = true) := by
  induction calls generalizing c with
  | nil => exact ⟨Nat.le_refl _, id⟩
  | cons call calls ih =>
    obtain ⟨stored, sequential⟩ := ih (c.call call)
    have added : ∀ bytes, c.stored ≤ (c.add bytes).stored ∧
        (c.add bytes).sequential = c.sequential := by
      intro bytes
      unfold Course.add
      split
      · exact ⟨Nat.le_add_right _ _, rfl⟩
      · split
        · exact ⟨Nat.le_refl _, rfl⟩
        · exact ⟨Nat.le_add_right _ _, rfl⟩
    have step : c.stored ≤ (c.call call).stored ∧
        ((c.call call).sequential = true → c.sequential = true) := by
      cases call with
      | put a => exact ⟨(added 1).1, fun now => (added 1).2.symm.trans now⟩
      | beginpart n => exact ⟨Nat.le_refl _, id⟩
      | endpart n => exact ⟨Nat.le_refl _, id⟩
      | insertpart n =>
        unfold Course.call
        dsimp only
        split
        · rename_i now
          split
          · exact ⟨(added _).1, fun _ => now⟩
          · exact ⟨Nat.le_refl _, fun _ => now⟩
        · exact ⟨Nat.le_refl _, id⟩
    exact ⟨Nat.le_trans step.1 stored, fun now => step.2 (sequential now)⟩

/-- When all calls have results, told by the course. -/
theorem Follows.runs_iff (follows : Follows t c b h) (nested : Nested t.open_ calls)
    (once : (b ++ EmCode.begun calls).Nodup) :
    (∃ h', calls.foldlM Held.call h = some h') ↔
      (∀ before n after, calls = before ++ .insertpart n :: after →
        (before.foldl Course.call c).sequential = true →
        n ∉ (before.foldl Course.call c).begun → (before.foldl Course.call c).open_ = []) ∧
      ((calls.foldl Course.call c).sequential = true ∨ 0 ∉ b ++ EmCode.begun calls) ∧
      (calls.foldl Course.call c).stored ≤ 2 ^ 31 := by
  constructor
  · rintro ⟨h', ran⟩
    refine ⟨?_, ?_, ?_⟩
    · intro before n after split now absent
      rw [split] at ran nested
      rw [List.foldlM_append] at ran
      obtain ⟨h₁, first, later⟩ := Option.bind_eq_some_iff.mp ran
      obtain ⟨h₂, step, _⟩ := Option.bind_eq_some_iff.mp later
      exact (follows.run _ nested first).call_outside now absent step
    · have final := follows.run [] (by rw [List.append_nil]; exact nested) ran
      cases sequential : h'.sequential with
      | true => exact Or.inl (final.sequential.trans sequential)
      | false => exact Or.inr (final.ids sequential)
    · have final := follows.run [] (by rw [List.append_nil]; exact nested) ran
      rw [final.stored]
      exact final.room
  · rintro ⟨outside, ids, room⟩
    induction calls generalizing t c b h with
    | nil => exact ⟨h, rfl⟩
    | cons call calls ih =>
      obtain ⟨nested', ends⟩ := nested_call nested
      obtain ⟨stored, sequential⟩ := course_mono calls (c.call call)
      rw [begun_cons, ← List.append_assoc] at once ids
      obtain ⟨h₁, step⟩ := follows.call_some ends (by
          rintro n rfl begun
          have pair := (List.nodup_append.mp once).1
          exact (List.nodup_append.mp pair).2.2 n begun n List.mem_cons_self rfl)
        (fun n same => outside [] n calls (by rw [same]; rfl))
        (ids.imp sequential fun free member => free (List.mem_append_left _ member))
        (Nat.le_trans stored room)
      obtain ⟨h', later⟩ := ih (follows.call ends step) nested' once (by
          intro before n after split
          exact outside (call :: before) n after (by rw [split]; rfl)) ids room
      exact ⟨h', by rw [List.foldlM_cons, step]; exact later⟩

end Run

end AckFormal.EmCode
