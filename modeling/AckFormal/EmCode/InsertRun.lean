import AckFormal.EmCode.Held

/-!
# The chunks hold the texts

Every call of the module does to the chunks, the buffers and the switches what it does to
the texts that are held.
-/

namespace AckFormal.EmCode

open Led (Byte)
open Function (update update_eq_self update_of_ne update_self)
open Lib
open Option (bind_eq_bind bind_eq_some_iff bind_some map_some)

/-! ## Chunks -/

section Chunks

variable {base added : List Byte} {chunk : PartOfPart} {chunks : List PartOfPart}

/-- The text of a chunk.  A chunk that is not ended goes up to where text is put. -/
def PartOfPart.items (base : List Byte) : PartOfPart → List (Item Byte Nat)
  | .text begin (some stop) => ((base.drop begin).take (stop - begin)).map .text
  | .text begin none => (base.drop begin).map .text
  | .insert id => [.insert id]

def contents (base : List Byte) (chunks : List PartOfPart) : List (Item Byte Nat) :=
  chunks.reverse.flatMap (PartOfPart.items base)

def PartOfPart.Closed (base : List Byte) : PartOfPart → Prop
  | .text begin (some stop) => begin ≤ stop ∧ stop ≤ base.length
  | .text _ none => False
  | .insert _ => True

theorem contents_cons : contents base (chunk :: chunks) =
    contents base chunks ++ chunk.items base := by
  rw [contents, List.reverse_cons, List.flatMap_append, List.flatMap_singleton, contents]

theorem PartOfPart.Closed.append (closed : chunk.Closed base) : chunk.Closed (base ++ added) := by
  match chunk with
  | .text begin (some stop) =>
    refine ⟨closed.1, ?_⟩
    have := closed.2
    rw [List.length_append]
    omega
  | .text _ none => exact closed
  | .insert _ => trivial

theorem PartOfPart.Closed.items_append (closed : chunk.Closed base) :
    chunk.items (base ++ added) = chunk.items base := by
  match chunk with
  | .text begin (some stop) =>
    obtain ⟨low, high⟩ := closed
    rw [PartOfPart.items, PartOfPart.items, List.drop_append_of_le_length (by omega),
      List.take_append_of_le_length (by rw [List.length_drop]; omega)]
  | .text _ none => exact absurd closed id
  | .insert _ => rfl

theorem contents_append (closed : ∀ chunk ∈ chunks, chunk.Closed base) :
    contents (base ++ added) chunks = contents base chunks := by
  induction chunks with
  | nil => rfl
  | cons chunk rest ih =>
    rw [contents_cons, contents_cons, ih fun c member => closed c (List.mem_cons_of_mem chunk member),
      (closed chunk List.mem_cons_self).items_append]

/-- Text that is put goes to the chunk that is not ended. -/
theorem items_open {begin : Nat} (low : begin ≤ base.length) :
    (PartOfPart.text begin none).items (base ++ added) =
      (PartOfPart.text begin none).items base ++ added.map .text := by
  rw [PartOfPart.items, PartOfPart.items, List.drop_append_of_le_length low, List.map_append]

end Chunks

/-! ## The stack of parts -/

/-- The parts that are being defined are linked, the latest first. -/
def Chain (stable : Nat → Option Part) : List Nat → Prop
  | [] => True
  | n :: rest => (∃ p, stable n = some p ∧ p.prevpart = rest.head?) ∧ Chain stable rest

theorem Chain.congr {stable stable' : Nat → Option Part} {levels : List Nat}
    (chain : Chain stable levels) (same : ∀ n p, n ∈ levels → stable n = some p →
      ∃ p', stable' n = some p' ∧ p'.prevpart = p.prevpart) : Chain stable' levels := by
  induction levels with
  | nil => trivial
  | cons n rest ih =>
    obtain ⟨⟨p, here, prev⟩, later⟩ := chain
    obtain ⟨p', here', prev'⟩ := same n p List.mem_cons_self here
    refine ⟨⟨p', here', prev'.trans prev⟩, ih later ?_⟩
    intro m q member
    exact same m q (List.mem_cons_of_mem n member)

variable {stable : Nat → Option Part}

theorem Chain.entry {levels : List Nat} (chain : Chain stable levels)
    {n : Nat} (member : n ∈ levels) : ∃ p, stable n = some p := by
  induction levels with
  | nil => cases member
  | cons m rest ih =>
    rcases List.mem_cons.mp member with rfl | later
    · obtain ⟨⟨p, here, _⟩, _⟩ := chain
      exact ⟨p, here⟩
    · exact ih chain.2 later

/-! ## States -/

/-- The chunks, the store and the buffer have what is held; only the chunks of the part
`active` have one that is not ended. -/
structure Keeps (buf : Bufsiz) (s : Code) (h : Held) (active : Option Nat) : Prop where
  sequential : s.sequential = h.sequential
  table : ∀ n, (s.stable n).isSome = true ↔ n ∈ h.table
  holds : ∀ n p, s.stable n = some p → contents s.base p.parts = h.held n
  closed : ∀ n p, s.stable n = some p → active ≠ some n → ∀ chunk ∈ p.parts, chunk.Closed s.base
  opened : ∀ n p, s.stable n = some p → active = some n → ∃ begin rest,
    p.parts = .text begin none :: rest ∧ begin ≤ s.base.length ∧ ∀ chunk ∈ rest, chunk.Closed s.base
  written : s.file ++ s.obuf = h.written
  buffer : s.obuf.length ≤ buf.siz
  flushed : s.obuf = [] → s.file = []
  store : s.base.length = h.stored
  fits : s.base.length ≤ s.bufsiz
  size : s.bufsiz = 0 ∨ ∃ k, k < 32 ∧ s.bufsiz = 2 ^ k
  used : s.base = [] → s.bufsiz = 0
  outside : ∀ n, n ∉ h.table → h.held n = []

structure Matches (buf : Bufsiz) (s : Code) (h : Held) : Prop where
  keeps : Keeps buf s h h.levels.head?
  current : s.currPart = h.levels.head?
  ontmpfile : s.ontmpfile = !h.levels.isEmpty
  chain : Chain s.stable h.levels
  listed : ∀ n ∈ h.levels, n ∈ h.table
  distinct : h.levels.Nodup

theorem matches_start (buf : Bufsiz) : Matches buf Code.start Held.start where
  keeps :=
    { sequential := rfl
      table := by simp [Code.start, Held.start]
      holds := by simp [Code.start]
      closed := by simp [Code.start]
      opened := by simp [Code.start]
      written := rfl
      buffer := Nat.zero_le _
      flushed := fun _ => rfl
      store := rfl
      fits := Nat.le_refl _
      size := Or.inl rfl
      used := fun _ => rfl
      outside := fun _ _ => rfl }
  current := rfl
  ontmpfile := rfl
  chain := trivial
  listed := by simp [Held.start]
  distinct := List.nodup_nil

/-! ## Bytes -/

section Put

variable {buf : Bufsiz} {s s' : Code} {h h' : Held} {active : Option Nat} {c : Byte}

theorem put_frame (ran : s.put buf c = some s') :
    s'.stable = s.stable ∧ s'.currPart = s.currPart ∧ s'.sequential = s.sequential ∧
      s'.ontmpfile = s.ontmpfile ∧ ∃ added, s'.base = s.base ++ added := by
  obtain ⟨s₁, flushed, rfl⟩ := Option.map_eq_some_iff.mp ran
  have same : s₁.stable = s.stable ∧ s₁.currPart = s.currPart ∧ s₁.sequential = s.sequential ∧
      s₁.ontmpfile = s.ontmpfile ∧ s₁.base = s.base := by
    split at flushed
    · unfold Code.flush at flushed
      split at flushed
      · dsimp only at flushed
        generalize (if s.bufsiz = 0 then buf.siz else s.bufsiz * 2 % 2 ^ 32) = size at flushed
        split at flushed
        · cases flushed
        · cases flushed
          exact ⟨rfl, rfl, rfl, rfl, rfl⟩
      · cases flushed
        exact ⟨rfl, rfl, rfl, rfl, rfl⟩
    · cases flushed
      exact ⟨rfl, rfl, rfl, rfl, rfl⟩
  obtain ⟨stable, current, sequential, ontmpfile, base⟩ := same
  unfold Code.push
  split
  · exact ⟨stable, current, sequential, ontmpfile, [c], by rw [base]⟩
  · exact ⟨stable, current, sequential, ontmpfile, [], by rw [base, List.append_nil]⟩

variable {bytes : List Byte}

theorem putAll_frame (ran : bytes.foldlM (Code.put buf) s = some s') :
    s'.stable = s.stable ∧ s'.currPart = s.currPart ∧ s'.sequential = s.sequential ∧
      s'.ontmpfile = s.ontmpfile ∧ ∃ added, s'.base = s.base ++ added := by
  induction bytes generalizing s with
  | nil =>
    cases ran
    exact ⟨rfl, rfl, rfl, rfl, [], (List.append_nil _).symm⟩
  | cons c bytes ih =>
    obtain ⟨next, stepped, later⟩ := bind_eq_some_iff.mp ran
    obtain ⟨stable, current, sequential, ontmpfile, added, base⟩ := put_frame stepped
    obtain ⟨stable', current', sequential', ontmpfile', added', base'⟩ := ih later
    exact ⟨stable'.trans stable, current'.trans current, sequential'.trans sequential,
      ontmpfile'.trans ontmpfile, added ++ added', by rw [base', base, List.append_assoc]⟩

/-- A full store doubles until it has two gigabytes. -/
theorem flush_store (keeps : Keeps buf s h active) (ontmpfile : s.ontmpfile = true)
    (full : s.full buf = true) :
    (h.stored < 2 ^ 31 → ∃ k, k < 32 ∧ s.base.length < 2 ^ k ∧
      s.flush buf = some { s with bufsiz := 2 ^ k }) ∧
    (2 ^ 31 ≤ h.stored → s.flush buf = none) := by
  have length : s.base.length = s.bufsiz := by
    rw [Code.full, if_pos ontmpfile] at full
    exact beq_iff_eq.mp full
  rw [← keeps.store, length]
  unfold Code.flush
  rw [if_pos ontmpfile]
  rcases keeps.size with none | ⟨k, bound, size⟩
  · rw [none, if_pos rfl]
    constructor
    · intro _
      refine ⟨buf.bits, buf.fits, Nat.two_pow_pos _, ?_⟩
      have some_ : buf.siz ≠ 0 := Nat.ne_of_gt (Nat.two_pow_pos _)
      simp only [if_neg some_]
      rfl
    · intro large
      exact absurd large (by decide)
  · have some_ : s.bufsiz ≠ 0 := by
      rw [size]
      exact Nat.ne_of_gt (Nat.two_pow_pos k)
    rw [if_neg some_, size, ← Nat.pow_succ]
    constructor
    · intro small
      have lower : k < 31 := (Nat.pow_lt_pow_iff_right (by decide)).mp small
      have double : 2 ^ (k + 1) % 2 ^ 32 = 2 ^ (k + 1) :=
        Nat.mod_eq_of_lt (Nat.pow_lt_pow_right (by decide) (by omega))
      have positive : 2 ^ (k + 1) ≠ 0 := Nat.ne_of_gt (Nat.two_pow_pos _)
      refine ⟨k + 1, by omega, Nat.pow_lt_pow_right (by decide) (Nat.lt_succ_self k), ?_⟩
      simp only [double, if_neg positive]
    · intro large
      have top : k = 31 := by
        have upper := (Nat.pow_le_pow_iff_right (by decide)).mp large
        omega
      subst top
      rfl

/-- A byte is put into the store, which is made larger before if it is full. -/
theorem Keeps.push_store {n k : Nat} (keeps : Keeps buf s h (some n)) (listed : n ∈ h.table)
    (bound : k < 32) (room : s.base.length < 2 ^ k) :
    Keeps buf { s with bufsiz := 2 ^ k, base := s.base ++ [c] } { h with
      held := update h.held n (h.held n ++ [.text c]), stored := h.stored + 1 }
      (some n) where
  sequential := keeps.sequential
  table := keeps.table
  holds := by
    intro m p here
    have before := keeps.holds m p here
    dsimp only
    by_cases same : m = n
    · subst same
      obtain ⟨begin, rest, parts, low, closed⟩ := keeps.opened m p here rfl
      rw [update_self, ← before, parts, contents_cons, contents_cons,
        contents_append closed, items_open low, List.append_assoc]
      rfl
    · rw [update_of_ne same, ← before]
      exact contents_append (keeps.closed m p here (by simpa using Ne.symm same))
  closed := by
    intro m p here other chunk member
    exact (keeps.closed m p here other chunk member).append
  opened := by
    intro m p here same
    obtain ⟨begin, rest, parts, low, closed⟩ := keeps.opened m p here same
    refine ⟨begin, rest, parts, ?_, fun chunk member => (closed chunk member).append⟩
    rw [List.length_append]
    omega
  written := keeps.written
  buffer := keeps.buffer
  flushed := keeps.flushed
  store := by rw [List.length_append, keeps.store, List.length_singleton]
  fits := by
    rw [List.length_append, List.length_singleton]
    exact room
  size := Or.inr ⟨k, bound, rfl⟩
  used := by simp
  outside := by
    intro m absent
    have other : m ≠ n := by
      rintro rfl
      exact absent listed
    dsimp only
    rw [update_of_ne other]
    exact keeps.outside m absent

theorem push_tmp (ontmpfile : s.ontmpfile = true) :
    s.push c = { s with base := s.base ++ [c] } := if_pos ontmpfile

theorem push_obuf (ontmpfile : s.ontmpfile = false) :
    s.push c = { s with obuf := s.obuf ++ [c] } := if_neg (by simp [ontmpfile])

/-- A byte goes to the store as long as that has room. -/
theorem Keeps.put_store {n : Nat} (keeps : Keeps buf s h (some n)) (listed : n ∈ h.table)
    (ontmpfile : s.ontmpfile = true) :
    (h.stored < 2 ^ 31 → ∃ s', s.put buf c = some s' ∧ Keeps buf s' { h with
      held := update h.held n (h.held n ++ [.text c]), stored := h.stored + 1 } (some n)) ∧
    (2 ^ 31 ≤ h.stored → s.put buf c = none) := by
  unfold Code.put
  by_cases full : s.full buf = true
  · obtain ⟨small, large⟩ := flush_store keeps ontmpfile full
    rw [if_pos full]
    constructor
    · intro room
      obtain ⟨k, bound, more, flushed⟩ := small room
      refine ⟨_, by rw [flushed, map_some], ?_⟩
      rw [push_tmp (by exact ontmpfile)]
      exact keeps.push_store listed bound more
    · intro more
      rw [large more, Option.map_none]
  · rw [if_neg full]
    have notFull : s.base.length ≠ s.bufsiz := by
      rw [Code.full, if_pos ontmpfile] at full
      simpa using full
    have fits := keeps.fits
    rcases keeps.size with none | ⟨k, bound, size⟩
    · omega
    · have top : 2 ^ k ≤ 2 ^ 31 := Nat.pow_le_pow_right (by decide) (by omega)
      have store := keeps.store
      constructor
      · intro _
        refine ⟨_, by rw [map_some], ?_⟩
        have pushed := keeps.push_store (c := c) listed bound (by omega)
        rw [push_tmp (by exact ontmpfile)]
        rw [← size] at pushed
        exact pushed
      · intro _
        omega

/-- A byte goes to the output when nothing is being held. -/
theorem Keeps.put_output (keeps : Keeps buf s h active) (ontmpfile : s.ontmpfile = false) :
    ∃ s', s.put buf c = some s' ∧
      Keeps buf s' { h with written := h.written ++ [c] } active := by
  have some_ : 0 < buf.siz := Nat.two_pow_pos _
  have buffer := keeps.buffer
  have isFull : s.full buf = (s.obuf.length == buf.siz) := if_neg (by simp [ontmpfile])
  have flush : s.flush buf = some { s with file := s.file ++ s.obuf, obuf := [] } :=
    if_neg (by simp [ontmpfile])
  unfold Code.put
  rw [isFull, flush]
  by_cases full : s.obuf.length = buf.siz
  · rw [if_pos (by simpa using full)]
    refine ⟨_, by rw [map_some], ?_⟩
    rw [push_obuf (by exact ontmpfile)]
    exact { keeps with
      written := by
        rw [← keeps.written]
        rfl
      buffer := some_
      flushed := by simp }
  · rw [if_neg (by simpa using full)]
    refine ⟨_, by rw [map_some], ?_⟩
    rw [push_obuf (by exact ontmpfile)]
    exact { keeps with
      written := by
        rw [← keeps.written, List.append_assoc]
      buffer := by
        rw [List.length_append, List.length_singleton]
        omega
      flushed := by simp }

variable (here : Matches buf s h)
include here

theorem Matches.same_levels (keeps : Keeps buf s' h' h'.levels.head?)
    (levels : h'.levels = h.levels) (table : h'.table = h.table) (chain : Chain s'.stable h.levels)
    (current : s'.currPart = s.currPart) (ontmpfile : s'.ontmpfile = s.ontmpfile) :
    Matches buf s' h' where
  keeps := keeps
  current := by rw [current, levels, here.current]
  ontmpfile := by rw [ontmpfile, levels, here.ontmpfile]
  chain := by rwa [levels]
  listed := by rw [levels, table]; exact here.listed
  distinct := by rw [levels]; exact here.distinct

theorem Matches.put_some (ran : h.put c = some h') :
    ∃ s', s.put buf c = some s' ∧ Matches buf s' h' := by
  have ontmpfile := here.ontmpfile
  have keeps := here.keeps
  cases levels : h.levels with
  | nil =>
    rw [levels] at ontmpfile
    obtain ⟨s', ran', keeps'⟩ := keeps.put_output (c := c) ontmpfile
    obtain ⟨stable, current, _, same, _⟩ := put_frame ran'
    rw [Held.put_main levels] at ran
    cases ran
    exact ⟨s', ran', here.same_levels keeps' rfl rfl (stable ▸ here.chain) current same⟩
  | cons n rest =>
    rw [levels] at ontmpfile keeps
    have listed : n ∈ h.table := here.listed n (by rw [levels]; exact List.mem_cons_self)
    rw [Held.put_part levels] at ran
    split at ran
    · rename_i room
      cases ran
      obtain ⟨s', ran', keeps'⟩ := (keeps.put_store (c := c) listed ontmpfile).1 room
      obtain ⟨stable, current, _, same, _⟩ := put_frame ran'
      have first : h.levels.head? = some n := by
        rw [levels]
        rfl
      refine ⟨s', ran', here.same_levels ?_ rfl rfl (stable ▸ here.chain) current same⟩
      rw [first]
      exact keeps'
    · cases ran

theorem Matches.put_none (ran : h.put c = none) : s.put buf c = none := by
  have ontmpfile := here.ontmpfile
  have keeps := here.keeps
  cases levels : h.levels with
  | nil =>
    rw [Held.put_main levels] at ran
    cases ran
  | cons n rest =>
    rw [levels] at ontmpfile keeps
    have listed : n ∈ h.table := here.listed n (by rw [levels]; exact List.mem_cons_self)
    rw [Held.put_part levels] at ran
    split at ran
    · cases ran
    · exact (keeps.put_store (c := c) listed ontmpfile).2 (by omega)

theorem Matches.putAll_some (ran : bytes.foldlM Held.put h = some h') :
    ∃ s', bytes.foldlM (Code.put buf) s = some s' ∧ Matches buf s' h' := by
  induction bytes generalizing s h with
  | nil =>
    cases ran
    exact ⟨s, rfl, here⟩
  | cons c bytes ih =>
    obtain ⟨h₁, step, later⟩ := bind_eq_some_iff.mp ran
    obtain ⟨s₁, step', here₁⟩ := here.put_some step
    obtain ⟨s', later', here'⟩ := ih here₁ later
    refine ⟨s', ?_, here'⟩
    rw [List.foldlM_cons, step']
    exact later'

theorem Matches.putAll_none (ran : bytes.foldlM Held.put h = none) :
    bytes.foldlM (Code.put buf) s = none := by
  induction bytes generalizing s h with
  | nil => cases ran
  | cons c bytes ih =>
    rw [List.foldlM_cons] at ran ⊢
    cases step : h.put c with
    | none =>
      rw [here.put_none step]
      rfl
    | some h₁ =>
      obtain ⟨s₁, step', here₁⟩ := here.put_some step
      rw [step] at ran
      rw [step']
      exact ih here₁ ran

end Put

/-! ## The table -/

section Table

variable {buf : Bufsiz} {s s' : Code} {h h' : Held} {active : Option Nat} {n : Nat}

variable {q : Part} {levels : List Nat}

theorem update_some {stable : Nat → Option Part} {m : Nat} {p : Part}
    (here : update stable n (some q) m = some p) : m = n ∧ p = q ∨ m ≠ n ∧ stable m = some p := by
  by_cases same : m = n
  · subst same
    rw [update_self] at here
    exact .inl ⟨rfl, (Option.some.inj here).symm⟩
  · rw [update_of_ne same] at here
    exact .inr ⟨same, here⟩

section

variable (keeps : Keeps buf s h active)
include keeps

/-- The chunks of one part are replaced by others with the same contents. -/
theorem Keeps.replace (next : Option Nat) (listed : n ∈ h.table)
    {items : List (Item Byte Nat)} (holds : contents s.base q.parts = items)
    (others : ∀ m, m ≠ n → (next = some m ↔ active = some m))
    (closed : next ≠ some n → ∀ chunk ∈ q.parts, chunk.Closed s.base)
    (opened : next = some n → ∃ begin rest, q.parts = .text begin none :: rest ∧
      begin ≤ s.base.length ∧ ∀ chunk ∈ rest, chunk.Closed s.base) :
    Keeps buf { s with stable := update s.stable n (some q) }
      { h with held := update h.held n items } next where
  sequential := keeps.sequential
  table := by
    intro m
    by_cases same : m = n
    · subst same
      simp [listed]
    · dsimp only
      rw [update_of_ne same]
      exact keeps.table m
  holds := by
    intro m p here
    dsimp only
    obtain ⟨rfl, rfl⟩ | ⟨same, here⟩ := update_some here
    · rw [update_self]
      exact holds
    · rw [update_of_ne same]
      exact keeps.holds m p here
  closed := by
    intro m p here other
    obtain ⟨rfl, rfl⟩ | ⟨same, here⟩ := update_some here
    · exact closed other
    · exact keeps.closed m p here (fun now => other ((others m same).mpr now))
  opened := by
    intro m p here now
    obtain ⟨rfl, rfl⟩ | ⟨same, here⟩ := update_some here
    · exact opened now
    · exact keeps.opened m p here ((others m same).mp now)
  written := keeps.written
  buffer := keeps.buffer
  flushed := keeps.flushed
  store := keeps.store
  fits := keeps.fits
  size := keeps.size
  used := keeps.used
  outside := by
    intro m absent
    have other : m ≠ n := by
      rintro rfl
      exact absent listed
    dsimp only
    rw [update_of_ne other]
    exact keeps.outside m absent

/-- The chunks of a part are changed, but its text is not. -/
theorem Keeps.rechunk (next : Option Nat) (listed : n ∈ h.table)
    (holds : contents s.base q.parts = h.held n)
    (others : ∀ m, m ≠ n → (next = some m ↔ active = some m))
    (closed : next ≠ some n → ∀ chunk ∈ q.parts, chunk.Closed s.base)
    (opened : next = some n → ∃ begin rest, q.parts = .text begin none :: rest ∧
      begin ≤ s.base.length ∧ ∀ chunk ∈ rest, chunk.Closed s.base) :
    Keeps buf { s with stable := update s.stable n (some q) } h next := by
  have replaced := keeps.replace next listed holds others closed opened
  rw [update_eq_self] at replaced
  exact replaced

theorem Keeps.entry (listed : n ∈ h.table) :
    ∃ p, s.stable n = some p :=
  Option.isSome_iff_exists.mp ((keeps.table n).mpr listed)

theorem Keeps.no_entry (absent : n ∉ h.table) :
    s.stable n = none := by
  rw [← Option.not_isSome_iff_eq_none]
  exact fun here => absent ((keeps.table n).mp here)

end

theorem chain_replace {p : Part} (chain : Chain stable levels)
    (here : stable n = some p) (prev : q.prevpart = p.prevpart) :
    Chain (update stable n (some q)) levels := by
  apply chain.congr
  intro m r _ here'
  by_cases same : m = n
  · subst same
    rw [update_self]
    rw [here] at here'
    cases here'
    exact ⟨q, rfl, prev⟩
  · rw [update_of_ne same]
    exact ⟨r, here', rfl⟩

theorem chain_new (chain : Chain stable levels)
    (absent : stable n = none) : Chain (update stable n (some q)) levels := by
  apply chain.congr
  intro m r _ here
  have other : m ≠ n := by
    rintro rfl
    rw [absent] at here
    cases here
  rw [update_of_ne other]
  exact ⟨r, here, rfl⟩

theorem mkpart_ran (ran : s.mkpart n = some s') :
    s.stable n = none ∧
      s' = { s with stable := update s.stable n (some ⟨[], none⟩) } := by
  unfold Code.mkpart at ran
  split at ran
  · cases ran
  · rename_i absent
    cases ran
    exact ⟨Option.not_isSome_iff_eq_none.mp absent, rfl⟩

/-- A part that nothing was known of is entered. -/
theorem Keeps.mkpart (keeps : Keeps buf s h active) (absent : n ∉ h.table)
    (other : active ≠ some n) :
    ∃ s', s.mkpart n = some s' ∧
      s' = { s with stable := update s.stable n (some ⟨[], none⟩) } ∧
      Keeps buf s' { h with table := n :: h.table } active := by
  have none := keeps.no_entry absent
  refine ⟨_, if_neg (by simp [none]), rfl, ?_⟩
  exact
    { keeps with
      table := by
        intro m
        by_cases same : m = n
        · subst same
          simp
        · dsimp only
          rw [update_of_ne same, keeps.table m, List.mem_cons]
          exact ⟨Or.inr, fun either => either.resolve_left same⟩
      holds := by
        intro m p here
        obtain ⟨rfl, rfl⟩ | ⟨-, here⟩ := update_some here
        · exact (keeps.outside m absent).symm
        · exact keeps.holds m p here
      closed := by
        intro m p here notActive
        obtain ⟨rfl, rfl⟩ | ⟨-, here⟩ := update_some here
        · exact nofun
        · exact keeps.closed m p here notActive
      opened := by
        intro m p here now
        obtain ⟨rfl, -⟩ | ⟨-, here⟩ := update_some here
        · exact absurd now other
        · exact keeps.opened m p here now
      outside := by
        intro m outside
        exact keeps.outside m fun member => outside (List.mem_cons_of_mem n member) }

/-- The text of the current part is closed. -/
theorem Keeps.endCurrent (keeps : Keeps buf s h (some n)) (listed : n ∈ h.table)
    (current : s.currPart = some n) : ∃ s', s.endCurrent = some s' ∧ Keeps buf s' h none := by
  obtain ⟨p, here⟩ := keeps.entry listed
  obtain ⟨begin, rest, parts, low, closed⟩ := keeps.opened n p here rfl
  have holds := keeps.holds n p here
  have others : ∀ m, m ≠ n → ((none : Option Nat) = some m ↔ some n = some m) := by
    intro m other
    simp [Ne.symm other]
  rw [parts, contents_cons] at holds
  have ended : ∀ q, s.endPartofpart p = some q →
      s.endCurrent = some { s with stable := update s.stable n (some q) } := by
    intro q stopped
    unfold Code.endCurrent
    rw [current]
    simp only [here, stopped, bind_eq_bind, bind_some]
  unfold Code.endPartofpart at ended
  rw [parts] at ended
  by_cases empty : begin = s.base.length
  · refine ⟨_, ended { p with parts := rest } (if_pos empty),
      keeps.rechunk none listed ?_ others (fun _ => closed) (by simp)⟩
    rw [← holds, empty]
    simp [PartOfPart.items]
  · refine ⟨_, ended { p with parts := .text begin (some s.base.length) :: rest } (if_neg empty),
      keeps.rechunk none listed ?_ others ?_ (by simp)⟩
    · rw [← holds, contents_cons, PartOfPart.items, PartOfPart.items, ← List.length_drop,
        List.take_length]
    · intro _ chunk member
      rcases List.mem_cons.mp member with rfl | later
      · exact ⟨low, Nat.le_refl _⟩
      · exact closed chunk later

theorem endCurrent_frame (ran : s.endCurrent = some s') :
    s'.currPart = s.currPart ∧ s'.sequential = s.sequential ∧ s'.ontmpfile = s.ontmpfile ∧
      (∀ m, s'.stable m = none ↔ s.stable m = none) ∧
      ∀ levels, Chain s.stable levels → Chain s'.stable levels := by
  unfold Code.endCurrent at ran
  split at ran
  · cases ran
    exact ⟨rfl, rfl, rfl, fun _ => Iff.rfl, fun _ chain => chain⟩
  · rename_i id _
    obtain ⟨p, here, later⟩ := bind_eq_some_iff.mp ran
    obtain ⟨q, ended, done⟩ := bind_eq_some_iff.mp later
    cases done
    have prev : q.prevpart = p.prevpart := by
      unfold Code.endPartofpart at ended
      split at ended
      · split at ended
        · cases ended
          rfl
        · cases ended
          rfl
      · cases ended
    refine ⟨rfl, rfl, rfl, ?_, fun _ chain => chain_replace chain here prev⟩
    intro m
    by_cases same : m = id
    · subst same
      simp [here]
    · dsimp only
      rw [update_of_ne same]

theorem resume_eq {p : Part} (here : s.stable n = some p) :
    s.resume n = some { s with
      ontmpfile := true, currPart := some n,
      stable := update s.stable n
        (some { p with parts := .text s.base.length none :: p.parts }) } := by
  unfold Code.resume
  rw [here]
  rfl

theorem Keeps.resume (keeps : Keeps buf s h none) (listed : n ∈ h.table) :
    ∃ s', s.resume n = some s' ∧ Keeps buf s' h (some n) := by
  obtain ⟨p, here⟩ := keeps.entry listed
  have closed := keeps.closed n p here (by simp)
  refine ⟨_, resume_eq here, ?_⟩
  have rechunked := keeps.rechunk (q := { p with parts := .text s.base.length none :: p.parts })
    (some n) listed (by
      rw [← keeps.holds n p here, contents_cons]
      simp [PartOfPart.items]) (by
      intro m other
      simp [Ne.symm other]) (by simp) (fun _ => ⟨s.base.length, p.parts, rfl, Nat.le_refl _, closed⟩)
  exact { rechunked with }

theorem resume_frame (ran : s.resume n = some s') :
    s'.currPart = some n ∧ s'.sequential = s.sequential ∧ s'.ontmpfile = true ∧
      ∀ levels, Chain s.stable levels → Chain s'.stable levels := by
  cases here : s.stable n with
  | none =>
    unfold Code.resume at ran
    rw [here] at ran
    cases ran
  | some p =>
    rw [resume_eq here] at ran
    cases ran
    exact ⟨rfl, rfl, rfl, fun _ chain => chain_replace chain here rfl⟩

theorem Keeps.addInsert {p : Nat} (keeps : Keeps buf s h none) (listed : p ∈ h.table) :
    ∃ s', s.addInsert p n = some s' ∧
      Keeps buf s' { h with held := update h.held p (h.held p ++ [.insert n]) }
        (some p) := by
  obtain ⟨q, here⟩ := keeps.entry listed
  have closed := keeps.closed p q here (by simp)
  have replaced := keeps.replace (q := { q with parts := .insert n :: q.parts })
    none listed rfl (fun _ _ => Iff.rfl) (by
      intro _ chunk member
      rcases List.mem_cons.mp member with rfl | later
      · trivial
      · exact closed chunk later) (by simp)
  rw [contents_cons, keeps.holds p q here, PartOfPart.items] at replaced
  obtain ⟨s', ran, keeps'⟩ := replaced.resume (n := p) listed
  refine ⟨s', ?_, keeps'⟩
  unfold Code.addInsert
  rw [here]
  exact ran

theorem addInsert_frame {p : Nat} (ran : s.addInsert p n = some s') :
    s'.currPart = some p ∧ s'.sequential = s.sequential ∧ s'.ontmpfile = true ∧
      ∀ levels, Chain s.stable levels → Chain s'.stable levels := by
  obtain ⟨q, here, later⟩ := bind_eq_some_iff.mp ran
  obtain ⟨current, sequential, ontmpfile, chains⟩ := resume_frame later
  exact ⟨current, sequential, ontmpfile, fun levels chain =>
    chains levels (chain_replace chain here rfl)⟩

/-- The new part is current, in front of those that were begun before. -/
theorem beginpart_frame (ran : s.beginpart n = some s') (current : s.currPart = levels.head?)
    (chain : Chain s.stable levels) :
    s'.currPart = some n ∧ s'.sequential = s.sequential ∧ s'.ontmpfile = true ∧
      Chain s'.stable (n :: levels) := by
  obtain ⟨s₁, made, later⟩ := bind_eq_some_iff.mp ran
  obtain ⟨s₂, ended, later⟩ := bind_eq_some_iff.mp later
  obtain ⟨p, entry, resumed⟩ := bind_eq_some_iff.mp later
  obtain ⟨absent, rfl⟩ := mkpart_ran made
  obtain ⟨current₂, sequential₂, _, _, chains⟩ := endCurrent_frame ended
  obtain ⟨current', sequential', ontmpfile', _⟩ := resume_frame resumed
  have chain₂ : Chain s₂.stable levels := chains _ (chain_new chain absent)
  have outside : n ∉ levels := by
    intro member
    obtain ⟨q, entry'⟩ := chain.entry member
    rw [absent] at entry'
    cases entry'
  refine ⟨current', sequential'.trans sequential₂, ontmpfile', ?_⟩
  rw [resume_eq (update_self n (some { p with prevpart := s₂.currPart }) s₂.stable)]
    at resumed
  cases resumed
  refine ⟨⟨_, update_self _ _ _, ?_⟩, ?_⟩
  · dsimp only
    rw [current₂, ← current]
  · apply chain₂.congr
    intro m q member entry'
    have other : m ≠ n := by
      rintro rfl
      exact outside member
    dsimp only
    rw [update_of_ne other, update_of_ne other]
    exact ⟨q, entry', rfl⟩

theorem endpart_frame {m : Nat} {rest : List Nat} (ran : s.endpart n = some s')
    (current : s.currPart = some m) (chain : Chain s.stable (m :: rest)) :
    n = m ∧ s'.currPart = rest.head? ∧ s'.sequential = s.sequential ∧
      s'.ontmpfile = !rest.isEmpty ∧ Chain s'.stable rest := by
  obtain ⟨id, here, later⟩ := bind_eq_some_iff.mp ran
  rw [current] at here
  cases here
  split at later
  · cases later
  · rename_i same
    obtain ⟨s₁, ended, later⟩ := bind_eq_some_iff.mp later
    obtain ⟨_, sequential₁, _, _, chains⟩ := endCurrent_frame ended
    obtain ⟨⟨p, entry, prev⟩, chainRest⟩ := chains _ chain
    rw [entry] at later
    simp only [bind_eq_bind, bind_some, prev] at later
    refine ⟨(Decidable.not_not.mp same).symm, ?_⟩
    cases rest with
    | nil =>
      cases later
      exact ⟨rfl, sequential₁, rfl, trivial⟩
    | cons m' rest =>
      obtain ⟨current', sequential', ontmpfile', chains'⟩ := resume_frame later
      exact ⟨current', sequential'.trans sequential₁, ontmpfile', chains' _ chainRest⟩

end Table

end AckFormal.EmCode
