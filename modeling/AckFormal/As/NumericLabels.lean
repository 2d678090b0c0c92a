import AckFormal.Lib.Links
import Mathlib.Data.UInt

/-!
# Numeric labels of the assembler

The lists of the labels 0 to 9 and their cursors: `infbsym`, `fb_alloc` and `fb_shift` of
`as/comm5.c`, the rule for a numeric label in `as/comm2.y`, and what `parse` and `pass_23` of
`as/comm4.c` do with the cursors.  The lexical scan of the first pass puts the items it finds
in the token file; later passes take them from there and shift through the lists only for
definitions.

Over the lists stands a table that has, for each label, the definitions so far, the last one of
the module, and the one that forward references wait for.
-/

namespace AckFormal.As.NumericLabels

open Lib.Links
open Function (update update_eq_self update_of_ne update_self)

abbrev Item := Nat

inductive Ptr where
  | HEAD | TAIL | BACK | FORW
  deriving DecidableEq

inductive FbError where
  | badNumericLabel
  | badLabel
  | undefinedLabel (lab : Fin 10)

structure Fb where
  fb_ptr : Ptr → Fin 10 → Option Item
  i_next : Item → Option Item
  /-- the item that `item_alloc` gives next -/
  fresh : Item
  errors : List FbError

namespace Fb

def start : Fb := ⟨fun _ _ => none, fun _ => none, 0, []⟩

def setPtr (st : Fb) (part : Ptr) (lab : Fin 10) (value : Option Item) : Fb :=
  { st with
    fb_ptr := update st.fb_ptr part (update (st.fb_ptr part) lab value) }

def serror (st : Fb) (error : FbError) : Fb := { st with errors := st.errors ++ [error] }

end Fb

def fb_alloc (lab : Fin 10) (st : Fb) : Item × Fb :=
  let ip := st.fresh
  let st := { st with i_next := update st.i_next ip none, fresh := ip + 1 }
  let st :=
    match st.fb_ptr .TAIL lab with
    | none => st.setPtr .HEAD lab (some ip)
    | some p => { st with i_next := update st.i_next p (some ip) }
  (ip, st.setPtr .TAIL lab (some ip))

/-- `fb_shift`; a null pointer that is followed has no result. -/
def fb_shift (pass1 : Bool) (lab : Fin 10) (st : Fb) : Option (Item × Fb) :=
  let found : Option Item × Fb :=
    match st.fb_ptr .FORW lab with
    | some ip => (some ip, st)
    | none =>
      if pass1 then
        let (ip, st) := fb_alloc lab st
        (some ip, st)
      else (st.fb_ptr .HEAD lab, st)
  found.1.map fun ip =>
    (ip, (found.2.setPtr .BACK lab (some ip)).setPtr .FORW lab (found.2.i_next ip))

def infbsym (st : Fb) (num : List UInt8) : Item × Fb :=
  let bad := fb_alloc 0 (st.serror .badNumericLabel)
  match num with
  | [] => bad
  | c :: p =>
    if digit : (c - 0x30).toNat < 10 then
      let lab : Fin 10 := ⟨(c - 0x30).toNat, digit⟩
      if p.head? = some 0x66 then
        match st.fb_ptr .FORW lab with
        | some ip => (ip, st)
        | none =>
          let (ip, st) := fb_alloc lab st
          (ip, st.setPtr .FORW lab (some ip))
      else
        match st.fb_ptr .BACK lab with
        | some ip => if p.length = 1 then (ip, st) else bad
        | none => bad
    else bad

/-- What uses a numeric label: `NUMBER8 ':'`, and a number that ends in `f` or `b`. -/
inductive Statement where
  | label (n : Int)
  | fbsym (num : List UInt8)
  deriving DecidableEq

/-- The number of a label, with the message for one that is not 0 to 9. -/
def labelNumber (n : Int) (st : Fb) : Fin 10 × Fb :=
  if digit : 0 ≤ n ∧ n ≤ 9 then (⟨n.toNat, by omega⟩, st) else (0, st.serror .badLabel)

/-- One use in the first pass, with the item that goes to `newlabel` or to the token file. -/
def firstPass (st : Fb) : Statement → Option (Item × Fb)
  | .label n =>
    let (lab, st) := labelNumber n st
    fb_shift true lab st
  | .fbsym num => some (infbsym st num)

abbrev Entry := Statement × Item

def runFirst (st : Fb) : List Statement → Option (List Entry × Fb)
  | [] => some ([], st)
  | s :: rest => do
      let (ip, st) ← firstPass st s
      let (entries, st) ← runFirst st rest
      some ((s, ip) :: entries, st)

/-- The end of `parse` for one label: a forward reference without a definition is reported. -/
def reportForw (st : Fb) (lab : Fin 10) : Fb :=
  match st.fb_ptr .FORW lab with
  | none => st
  | some _ => (st.serror (.undefinedLabel lab)).setPtr .FORW lab none

def checkForw (st : Fb) : Fb := (List.finRange 10).foldl reportForw st

def parse (st : Fb) (statements : List Statement) : Option (List Entry × Fb) :=
  let st := { st with fb_ptr := update st.fb_ptr .BACK fun _ => none }
  (runFirst st statements).map fun (entries, st) => (entries, checkForw st)

def parseAll (st : Fb) : List (List Statement) → Option (List (List Entry) × Fb)
  | [] => some ([], st)
  | statements :: rest => do
      let (entries, st) ← parse st statements
      let (all, st) ← parseAll st rest
      some (entries :: all, st)

/-- One use in a later pass: the item of a reference comes from the token file. -/
def laterPass (st : Fb) : Entry → Option (Item × Fb)
  | (.label n, _) =>
    let (lab, st) := labelNumber n st
    fb_shift false lab st
  | (.fbsym _, ip) => some (ip, st)

def runLater (st : Fb) : List Entry → Option (List Entry × Fb)
  | [] => some ([], st)
  | entry :: rest => do
      let (ip, st) ← laterPass st entry
      let (entries, st) ← runLater st rest
      some ((entry.1, ip) :: entries, st)

/-- `pass_23`: the forward cursors start at the heads again. -/
def pass_23 (st : Fb) (entries : List Entry) : Option (List Entry × Fb) :=
  runLater { st with fb_ptr := update st.fb_ptr .FORW (st.fb_ptr .HEAD) } entries

/-! ### The table of labels -/

def backText (lab : Fin 10) : List UInt8 := [0x30 + UInt8.ofNat lab, 0x62]

def forwText (lab : Fin 10) : List UInt8 := [0x30 + UInt8.ofNat lab, 0x66]

structure Table where
  defs : Fin 10 → List Item
  back : Fin 10 → Option Item
  forw : Fin 10 → Option Item

namespace Table

variable {t t' : Table}

/-- The items of a label: its definitions and the one that is waited for. -/
def chain (t : Table) (lab : Fin 10) : List Item := t.defs lab ++ (t.forw lab).toList

/-- The item is the one waited for, or a new one when there is none. -/
def Pending (t : Table) (lab : Fin 10) (ip : Item) : Prop :=
  t.forw lab = some ip ∨ t.forw lab = none ∧ ∀ other, ip ∉ t.chain other

theorem Pending.eq_of_waiting {lab : Fin 10} {ip ip' : Item} (pending : t.Pending lab ip')
    (waiting : t.forw lab = some ip) : ip' = ip := by
  rcases pending with pending | ⟨nothing, -⟩
  · exact Option.some.inj (pending.symm.trans waiting)
  · rw [nothing] at waiting
    exact nomatch waiting

def define (t : Table) (lab : Fin 10) (ip : Item) : Table where
  defs := update t.defs lab (t.defs lab ++ [ip])
  back := update t.back lab (some ip)
  forw := update t.forw lab none

def await (t : Table) (lab : Fin 10) (ip : Item) : Table :=
  { t with forw := update t.forw lab (some ip) }

/-- What a statement does to the table when nothing is reported. -/
inductive Step (t : Table) : Statement → Item → Table → Prop
  | define {lab : Fin 10} {ip : Item} (pending : t.Pending lab ip) :
      Step t (.label (lab : Nat)) ip (t.define lab ip)
  | forward {lab : Fin 10} {ip : Item} {c : UInt8} {p : List UInt8}
      (digit : (c - 0x30).toNat = lab) (pending : t.Pending lab ip) :
      Step t (.fbsym (c :: 0x66 :: p)) ip (t.await lab ip)
  | back {lab : Fin 10} {ip : Item} {c c' : UInt8} (digit : (c - 0x30).toNat = lab)
      (other : c' ≠ 0x66) (known : t.back lab = some ip) :
      Step t (.fbsym [c, c']) ip t

inductive Run : Table → List Entry → Table → Prop
  | nil (t : Table) : Run t [] t
  | cons {t between t' : Table} {s : Statement} {ip : Item} {rest : List Entry}
      (step : Step t s ip between) (run : Run between rest t') : Run t ((s, ip) :: rest) t'

theorem Run.append {first second : List Entry} (run : Run t (first ++ second) t') :
    ∃ between, Run t first between ∧ Run between second t' := by
  induction first generalizing t with
  | nil => exact ⟨t, .nil t, run⟩
  | cons entry first ih =>
    cases run with
    | cons step run =>
      obtain ⟨between, before, after⟩ := ih run
      exact ⟨between, .cons step before, after⟩

end Table

def itemOf (lab : Fin 10) (entry : Entry) : Option Item :=
  if entry.1 = .label (lab : Nat) then some entry.2 else none

/-- The item of the last definition of `lab` before a place. -/
def nearestBefore (lab : Fin 10) (pre : List Entry) : Option Item :=
  pre.reverse.findSome? (itemOf lab)

/-- The item of the first definition of `lab` behind a place. -/
def nearestAfter (lab : Fin 10) (post : List Entry) : Option Item :=
  post.findSome? (itemOf lab)

theorem itemOf_label (lab other : Fin 10) (ip : Item) :
    itemOf lab (.label (other : Nat), ip) = if other = lab then some ip else none := by
  have same : (Statement.label (other : Nat) = .label (lab : Nat)) ↔ other = lab := by
    rw [Statement.label.injEq, Int.natCast_inj, Fin.val_inj]
  simp only [itemOf, same]

@[simp] theorem itemOf_fbsym (lab : Fin 10) (num : List UInt8) (ip : Item) :
    itemOf lab (.fbsym num, ip) = none := rfl

namespace Table

variable {t t' : Table} {entries : List Entry}

/-- A backward reference sees the nearest definition before it. -/
theorem Run.back_eq (run : Run t entries t') (lab : Fin 10) :
    t'.back lab = (nearestBefore lab entries).or (t.back lab) := by
  induction run with
  | nil t => rfl
  | @cons t between t' s ip rest step run ih =>
    rw [ih, nearestBefore, nearestBefore, List.reverse_cons, List.findSome?_append, Option.or_assoc]
    cases step with
    | @define other _ pending =>
      rw [List.findSome?_singleton, itemOf_label]
      by_cases same : other = lab
      · subst same
        simp [define]
      · simp [define, same, update_of_ne (Ne.symm same)]
    | forward digit pending => rfl
    | back digit other known => rfl

/-- What forward references wait for is the next definition, or is still waited for. -/
theorem Run.forw_eq (run : Run t entries t') {lab : Fin 10} {ip : Item}
    (waiting : t.forw lab = some ip) :
    nearestAfter lab entries = some ip ∨
      nearestAfter lab entries = none ∧ t'.forw lab = some ip := by
  induction run with
  | nil t => exact .inr ⟨rfl, waiting⟩
  | @cons t between t' s ip' rest step run ih =>
    rw [nearestAfter, List.findSome?_cons]
    cases step with
    | @define other _ pending =>
      rw [itemOf_label]
      by_cases same : other = lab
      · subst same
        have found := pending.eq_of_waiting waiting
        simp [found]
      · rw [if_neg same]
        exact ih ((update_of_ne (Ne.symm same) _ _).trans waiting)
    | @forward other _ c p digit pending =>
      refine ih ?_
      by_cases same : lab = other
      · subst same
        have found := pending.eq_of_waiting waiting
        rw [await, found]
        exact update_self ..
      · exact (update_of_ne same _ _).trans waiting
    | back digit other known => exact ih waiting

theorem Run.defs_eq (run : Run t entries t') (lab : Fin 10) :
    t'.defs lab = t.defs lab ++ entries.filterMap (itemOf lab) := by
  induction run with
  | nil t => simp
  | @cons t between t' s ip rest step run ih =>
    rw [ih]
    cases step with
    | @define other _ pending =>
      rw [List.filterMap_cons, itemOf_label]
      by_cases same : other = lab
      · subst same
        simp [define]
      · simp [define, same, update_of_ne (Ne.symm same)]
    | forward digit pending => rfl
    | back digit other known => rfl

end Table

/-! ### The lists -/

/-- The items of each label are linked from its head to its tail. -/
structure Lists (st : Fb) (chain : Fin 10 → List Item) : Prop where
  head : ∀ lab, st.fb_ptr .HEAD lab = (chain lab).head?
  tail : ∀ lab, st.fb_ptr .TAIL lab = (chain lab).getLast?
  linked : ∀ lab, Follows st.i_next (chain lab) none
  used : ∀ lab, ∀ ip ∈ chain lab, ip < st.fresh
  apart : ∀ lab other, lab ≠ other → ∀ ip ∈ chain lab, ip ∉ chain other

variable {st st' : Fb} {chain : Fin 10 → List Item} {entries : List Entry}

theorem Lists.congr (lists : Lists st chain) (head : st'.fb_ptr .HEAD = st.fb_ptr .HEAD)
    (tail : st'.fb_ptr .TAIL = st.fb_ptr .TAIL) (next : st'.i_next = st.i_next)
    (fresh : st'.fresh = st.fresh) : Lists st' chain where
  head lab := (congrFun head lab).trans (lists.head lab)
  tail lab := (congrFun tail lab).trans (lists.tail lab)
  linked lab := next ▸ lists.linked lab
  used lab ip member := fresh ▸ lists.used lab ip member
  apart := lists.apart

theorem fb_alloc_fst (lab : Fin 10) (st : Fb) : (fb_alloc lab st).1 = st.fresh := rfl

theorem fb_alloc_errors (lab : Fin 10) (st : Fb) : (fb_alloc lab st).2.errors = st.errors := by
  unfold fb_alloc
  dsimp only
  split <;> rfl

theorem fb_alloc_fresh (lab : Fin 10) (st : Fb) : (fb_alloc lab st).2.fresh = st.fresh + 1 := by
  unfold fb_alloc
  dsimp only
  split <;> rfl

theorem fb_alloc_cursors (lab : Fin 10) (st : Fb) {part : Ptr} (head : part ≠ .HEAD)
    (tail : part ≠ .TAIL) : (fb_alloc lab st).2.fb_ptr part = st.fb_ptr part := by
  unfold fb_alloc
  dsimp only
  split <;> simp [Fb.setPtr, head, tail]

theorem fb_alloc_tail (lab : Fin 10) (st : Fb) :
    (fb_alloc lab st).2.fb_ptr .TAIL =
      update (st.fb_ptr .TAIL) lab (some st.fresh) := by
  unfold fb_alloc
  dsimp only
  split <;> simp [Fb.setPtr]

variable {lab : Fin 10}

theorem fb_alloc_first (empty : st.fb_ptr .TAIL lab = none) :
    (fb_alloc lab st).2.fb_ptr .HEAD = update (st.fb_ptr .HEAD) lab (some st.fresh) ∧
      (fb_alloc lab st).2.i_next = update st.i_next st.fresh none := by
  unfold fb_alloc
  dsimp only
  rw [empty]
  simp [Fb.setPtr]

theorem fb_alloc_more {p : Item} (more : st.fb_ptr .TAIL lab = some p) :
    (fb_alloc lab st).2.fb_ptr .HEAD = st.fb_ptr .HEAD ∧
      (fb_alloc lab st).2.i_next =
        update (update st.i_next st.fresh none) p (some st.fresh) := by
  unfold fb_alloc
  dsimp only
  rw [more]
  simp [Fb.setPtr]

theorem Lists.new (lists : Lists st chain) (lab : Fin 10) : st.fresh ∉ chain lab := fun member =>
  Nat.lt_irrefl _ (lists.used lab _ member)

/-- A new item is linked behind the last one of its label. -/
theorem Lists.alloc_linked (lists : Lists st chain) (lab other : Fin 10) :
    Follows (fb_alloc lab st).2.i_next
      (update chain lab (chain lab ++ [st.fresh]) other) none := by
  cases tails : st.fb_ptr .TAIL lab with
  | none =>
    have empty : chain lab = [] := List.getLast?_eq_none_iff.mp (lists.tail lab ▸ tails)
    rw [(fb_alloc_first tails).2]
    by_cases same : other = lab
    · subst same
      rw [update_self, empty]
      simp [Follows]
    · rw [update_of_ne same]
      exact follows_update (lists.new other) (lists.linked other)
  | some p =>
    obtain ⟨init, split⟩ := List.getLast?_eq_some_iff.mp (lists.tail lab ▸ tails)
    rw [(fb_alloc_more tails).2]
    by_cases same : other = lab
    · subst same
      rw [update_self, follows_append]
      have different : st.fresh ≠ p := by
        rintro rfl
        exact lists.new other (split ▸ List.mem_append_right init List.mem_cons_self)
      have linked : Follows (update st.i_next st.fresh none) (chain other) none :=
        follows_update (lists.new other) (lists.linked other)
      have nodup := follows_nodup (lists.linked other)
      rw [split] at linked nodup ⊢
      have last : p ∉ init := fun member =>
        List.disjoint_of_nodup_append nodup member List.mem_cons_self
      exact ⟨follows_redirect last linked, by simp [Follows, update_of_ne different]⟩
    · rw [update_of_ne same]
      refine follows_update ?_ (follows_update (lists.new other) (lists.linked other))
      exact lists.apart lab other (Ne.symm same) p
        (split ▸ List.mem_append_right init List.mem_cons_self)

/-- A new item comes at the end of the list of its label. -/
theorem Lists.alloc (lists : Lists st chain) (lab : Fin 10) :
    Lists (fb_alloc lab st).2 (update chain lab (chain lab ++ [st.fresh])) := by
  have member : ∀ other ip,
      ip ∈ update chain lab (chain lab ++ [st.fresh]) other →
        ip ∈ chain other ∨ other = lab ∧ ip = st.fresh := by
    intro other ip inside
    by_cases same : other = lab
    · subst same
      rw [update_self, List.mem_append, List.mem_singleton] at inside
      exact inside.imp_right fun new => ⟨rfl, new⟩
    · rw [update_of_ne same] at inside
      exact .inl inside
  refine ⟨?_, ?_, lists.alloc_linked lab, ?_, ?_⟩
  · intro other
    cases tails : st.fb_ptr .TAIL lab with
    | none =>
      have empty : chain lab = [] := List.getLast?_eq_none_iff.mp (lists.tail lab ▸ tails)
      rw [(fb_alloc_first tails).1]
      by_cases same : other = lab
      · subst same
        simp [empty]
      · simp [update_of_ne same, lists.head]
    | some p =>
      obtain ⟨init, split⟩ := List.getLast?_eq_some_iff.mp (lists.tail lab ▸ tails)
      rw [(fb_alloc_more tails).1, lists.head]
      by_cases same : other = lab
      · subst same
        simp [split]
      · simp [update_of_ne same]
  · intro other
    rw [fb_alloc_tail]
    by_cases same : other = lab
    · subst same
      simp
    · simp [update_of_ne same, lists.tail]
  · intro other ip inside
    rw [fb_alloc_fresh]
    rcases member other ip inside with old | ⟨-, rfl⟩
    · exact Nat.lt_succ_of_lt (lists.used other ip old)
    · exact Nat.lt_succ_self _
  · intro one other different ip inOne inOther
    rcases member one ip inOne with old | ⟨atOne, rfl⟩
    · rcases member other ip inOther with old' | ⟨-, rfl⟩
      · exact lists.apart one other different ip old old'
      · exact lists.new one old
    · rcases member other _ inOther with old' | ⟨atOther, -⟩
      · exact lists.new other old'
      · exact different (atOne.trans atOther.symm)

/-! ### The first pass follows the table -/

structure Represents (st : Fb) (t : Table) : Prop where
  forw : st.fb_ptr .FORW = t.forw
  back : st.fb_ptr .BACK = t.back
  lists : Lists st t.chain

variable {t : Table} {ip : Item}

theorem Table.chain_define_waiting (waiting : t.forw lab = some ip) :
    (t.define lab ip).chain = t.chain := by
  funext other
  by_cases same : other = lab
  · subst same
    simp [Table.chain, Table.define, waiting]
  · simp [Table.chain, Table.define, update_of_ne same]

theorem Table.chain_define_new (nothing : t.forw lab = none) :
    (t.define lab ip).chain = update t.chain lab (t.chain lab ++ [ip]) := by
  funext other
  by_cases same : other = lab
  · subst same
    simp [Table.chain, Table.define, nothing]
  · simp [Table.chain, Table.define, update_of_ne same]

theorem Table.chain_await_new (nothing : t.forw lab = none) :
    (t.await lab ip).chain = update t.chain lab (t.chain lab ++ [ip]) := by
  funext other
  by_cases same : other = lab
  · subst same
    simp [Table.chain, Table.await, nothing]
  · simp [Table.chain, Table.await, update_of_ne same]

theorem Lists.setCursors (lists : Lists st chain) (lab : Fin 10) (back forw : Option Item) :
    Lists ((st.setPtr .BACK lab back).setPtr .FORW lab forw) chain := by
  refine lists.congr ?_ ?_ rfl rfl <;> simp [Fb.setPtr]

theorem setCursors_forw (st : Fb) (lab : Fin 10) (back forw : Option Item) :
    ((st.setPtr .BACK lab back).setPtr .FORW lab forw).fb_ptr .FORW =
      update (st.fb_ptr .FORW) lab forw := by
  simp [Fb.setPtr]

theorem setCursors_back (st : Fb) (lab : Fin 10) (back forw : Option Item) :
    ((st.setPtr .BACK lab back).setPtr .FORW lab forw).fb_ptr .BACK =
      update (st.fb_ptr .BACK) lab back := by
  simp [Fb.setPtr]

theorem Represents.waiting_last (represents : Represents st t) (waiting : t.forw lab = some ip) :
    st.i_next ip = none := by
  have linked := represents.lists.linked lab
  rw [Table.chain, waiting, Option.toList_some, follows_append] at linked
  exact linked.2.1

/-- A label is defined: its item is the one that waits, or a new one. -/
theorem Represents.shift (represents : Represents st t) (lab : Fin 10) :
    ∃ ip st', fb_shift true lab st = some (ip, st') ∧ st'.errors = st.errors ∧
      t.Pending lab ip ∧ Represents st' (t.define lab ip) := by
  cases waiting : t.forw lab with
  | some ip =>
    have cursor : st.fb_ptr .FORW lab = some ip := (congrFun represents.forw lab).trans waiting
    refine ⟨ip, (st.setPtr .BACK lab (some ip)).setPtr .FORW lab (st.i_next ip), ?_, rfl,
      .inl waiting, ?_, ?_, ?_⟩
    · simp [fb_shift, cursor]
    · rw [setCursors_forw, represents.waiting_last waiting, represents.forw]
      rfl
    · rw [setCursors_back, represents.back]
      rfl
    · rw [Table.chain_define_waiting waiting]
      exact represents.lists.setCursors lab _ _
  | none =>
    have cursor : st.fb_ptr .FORW lab = none := (congrFun represents.forw lab).trans waiting
    have lists := represents.lists.alloc lab
    have last : (fb_alloc lab st).2.i_next st.fresh = none := by
      have linked := lists.linked lab
      rw [update_self, follows_append] at linked
      exact linked.2.1
    refine ⟨st.fresh, ((fb_alloc lab st).2.setPtr .BACK lab (some st.fresh)).setPtr .FORW lab
      ((fb_alloc lab st).2.i_next st.fresh), ?_, fb_alloc_errors lab st, ?_, ?_, ?_, ?_⟩
    · simp [fb_shift, cursor, fb_alloc_fst]
    · exact .inr ⟨waiting, represents.lists.new⟩
    · rw [setCursors_forw, last, fb_alloc_cursors lab st (by decide) (by decide), represents.forw]
      rfl
    · rw [setCursors_back, fb_alloc_cursors lab st (by decide) (by decide), represents.back]
      rfl
    · rw [Table.chain_define_new waiting]
      exact lists.setCursors lab _ _

theorem infbsym_bad_errors (st : Fb) :
    (fb_alloc 0 (st.serror .badNumericLabel)).2.errors = st.errors ++ [.badNumericLabel] :=
  fb_alloc_errors 0 _

theorem infbsym_forward {c : UInt8} (st : Fb) (p : List UInt8) (digit : (c - 0x30).toNat = lab) :
    infbsym st (c :: 0x66 :: p) =
      match st.fb_ptr .FORW lab with
      | some ip => (ip, st)
      | none =>
        ((fb_alloc lab st).1, (fb_alloc lab st).2.setPtr .FORW lab (some (fb_alloc lab st).1)) := by
  have same : (⟨(c - 0x30).toNat, digit ▸ lab.isLt⟩ : Fin 10) = lab := Fin.ext digit
  rw [infbsym, dif_pos (digit ▸ lab.isLt), same]
  rfl

theorem infbsym_back {c : UInt8} {lab : Fin 10} (st : Fb) {p : List UInt8}
    (digit : (c - 0x30).toNat = lab) (other : p.head? ≠ some 0x66) :
    infbsym st (c :: p) =
      match st.fb_ptr .BACK lab with
      | some ip => if p.length = 1 then (ip, st) else fb_alloc 0 (st.serror .badNumericLabel)
      | none => fb_alloc 0 (st.serror .badNumericLabel) := by
  have same : (⟨(c - 0x30).toNat, digit ▸ lab.isLt⟩ : Fin 10) = lab := Fin.ext digit
  rw [infbsym, dif_pos (digit ▸ lab.isLt), same]
  rw [if_neg other]

/-- A forward reference gives the item that is waited for. -/
theorem Represents.forward {st : Fb} {t : Table} (represents : Represents st t) {c : UInt8}
    {lab : Fin 10} (p : List UInt8) (digit : (c - 0x30).toNat = lab) :
    ∃ ip st', infbsym st (c :: 0x66 :: p) = (ip, st') ∧ st'.errors = st.errors ∧
      t.Pending lab ip ∧ Represents st' (t.await lab ip) := by
  rw [infbsym_forward st p digit, represents.forw]
  cases waiting : t.forw lab with
  | some ip =>
    have same : t.await lab ip = t := by
      rw [Table.await, ← waiting, update_eq_self]
    exact ⟨ip, st, rfl, rfl, .inl waiting, same.symm ▸ represents⟩
  | none =>
    refine ⟨st.fresh, _, rfl, fb_alloc_errors lab st, .inr ⟨waiting, represents.lists.new⟩,
      ?_, ?_, ?_⟩
    · simp [Fb.setPtr, fb_alloc_cursors, represents.forw, fb_alloc_fst, Table.await]
    · simp [Fb.setPtr, fb_alloc_cursors, represents.back, Table.await]
    · rw [Table.chain_await_new waiting]
      refine (represents.lists.alloc lab).congr ?_ ?_ rfl rfl <;> simp [Fb.setPtr]

/-- A reference is a step of the table, or it is reported. -/
theorem Represents.infbsym (represents : Represents st t) (num : List UInt8) :
    (∃ t', t.Step (.fbsym num) (infbsym st num).1 t' ∧ Represents (infbsym st num).2 t' ∧
      (infbsym st num).2.errors = st.errors) ∨
    (infbsym st num).2.errors = st.errors ++ [.badNumericLabel] := by
  cases num with
  | nil => exact .inr (infbsym_bad_errors st)
  | cons c p =>
    by_cases digit : (c - 0x30).toNat < 10
    · by_cases followed : p.head? = some 0x66
      · obtain ⟨p, rfl⟩ := List.head?_eq_some_iff.mp followed
        obtain ⟨ip, st', result, quiet, pending, represents'⟩ :=
          @Represents.forward _ _ represents _ ⟨_, digit⟩ p rfl
        rw [result]
        exact .inl ⟨_, .forward rfl pending, represents', quiet⟩
      · rw [@infbsym_back _ ⟨_, digit⟩ st _ rfl followed, represents.back]
        cases known : t.back ⟨_, digit⟩ with
        | none => exact .inr (infbsym_bad_errors st)
        | some ip =>
          by_cases short : p.length = 1
          · obtain ⟨c', rfl⟩ := List.length_eq_one_iff.mp short
            have other : c' ≠ 0x66 := fun same => followed (congrArg some same)
            exact .inl ⟨t, .back rfl other known, represents, rfl⟩
          · simp only [if_neg short]
            exact .inr (infbsym_bad_errors st)
    · rw [NumericLabels.infbsym, dif_neg digit]
      exact .inr (infbsym_bad_errors st)

theorem fb_shift_first (lab : Fin 10) (st : Fb) :
    ∃ ip st', fb_shift true lab st = some (ip, st') ∧ st'.errors = st.errors := by
  unfold fb_shift
  cases cursor : st.fb_ptr .FORW lab with
  | some ip => exact ⟨ip, _, rfl, rfl⟩
  | none => exact ⟨st.fresh, _, rfl, fb_alloc_errors lab st⟩

theorem infbsym_errors (st : Fb) (num : List UInt8) : st.errors <+: (infbsym st num).2.errors := by
  have bad : st.errors <+: (fb_alloc 0 (st.serror .badNumericLabel)).2.errors :=
    (infbsym_bad_errors st).symm ▸ List.prefix_append _ _
  unfold infbsym
  dsimp only
  repeat' split
  all_goals first
    | exact bad
    | exact List.prefix_rfl
    | exact (fb_alloc_errors _ st).symm ▸ List.prefix_rfl

/-- The first pass never follows a null pointer, and takes no message back. -/
theorem firstPass_some (st : Fb) (s : Statement) :
    ∃ ip st', firstPass st s = some (ip, st') ∧ st.errors <+: st'.errors := by
  cases s with
  | label n =>
    obtain ⟨ip, st', result, errors⟩ :=
      fb_shift_first (labelNumber n st).1 (labelNumber n st).2
    refine ⟨ip, st', result, errors ▸ ?_⟩
    unfold labelNumber
    split
    · exact List.prefix_rfl
    · exact List.prefix_append _ _
  | fbsym num => exact ⟨_, _, rfl, infbsym_errors st num⟩

theorem runFirst_some (st : Fb) (statements : List Statement) :
    ∃ entries st', runFirst st statements = some (entries, st') ∧ st.errors <+: st'.errors ∧
      entries.map Prod.fst = statements := by
  induction statements generalizing st with
  | nil => exact ⟨[], st, rfl, List.prefix_rfl, rfl⟩
  | cons s rest ih =>
    obtain ⟨ip, between, step, before⟩ := firstPass_some st s
    obtain ⟨entries, st', run, after, texts⟩ := ih between
    refine ⟨(s, ip) :: entries, st', ?_, before.trans after, congrArg (s :: ·) texts⟩
    simp [runFirst, step, run]

/-- A statement that is not reported is a step of the table. -/
theorem Represents.firstPass (represents : Represents st t) {s : Statement}
    (result : firstPass st s = some (ip, st')) (quiet : st'.errors = st.errors) :
    ∃ t', t.Step s ip t' ∧ Represents st' t' := by
  cases s with
  | label n =>
    by_cases digit : 0 ≤ n ∧ n ≤ 9
    · rw [NumericLabels.firstPass, labelNumber, dif_pos digit] at result
      obtain ⟨ip', shifted, shift, -, pending, represents'⟩ :=
        represents.shift ⟨n.toNat, by omega⟩
      obtain ⟨rfl, rfl⟩ := Prod.mk.inj (Option.some.inj (shift.symm.trans result))
      have number : (((⟨n.toNat, by omega⟩ : Fin 10) : Nat) : Int) = n :=
        Int.toNat_of_nonneg digit.1
      have step := Table.Step.define pending
      rw [number] at step
      exact ⟨_, step, represents'⟩
    · rw [NumericLabels.firstPass, labelNumber, dif_neg digit] at result
      obtain ⟨ip', shifted, shift, errors⟩ := fb_shift_first 0 (st.serror .badLabel)
      obtain ⟨rfl, rfl⟩ := Prod.mk.inj (Option.some.inj (shift.symm.trans result))
      rw [errors] at quiet
      simp [Fb.serror] at quiet
  | fbsym num =>
    have both : NumericLabels.infbsym st num = (ip, st') := Option.some.inj result
    have cases := represents.infbsym num
    rw [both] at cases
    rcases cases with ⟨t', step, represents', -⟩ | reported
    · exact ⟨t', step, represents'⟩
    · rw [reported] at quiet
      simp at quiet

variable {statements : List Statement}

/-- The statements of a module that reports nothing are a run of the table. -/
theorem Represents.runFirst (represents : Represents st t)
    (result : runFirst st statements = some (entries, st')) (quiet : st'.errors = st.errors) :
    ∃ t', t.Run entries t' ∧ Represents st' t' := by
  induction statements generalizing st t entries with
  | nil =>
    obtain ⟨rfl, rfl⟩ := Prod.mk.inj (Option.some.inj result)
    exact ⟨t, .nil t, represents⟩
  | cons s rest ih =>
    obtain ⟨ip, between, step, before⟩ := firstPass_some st s
    obtain ⟨entries', st'', run, after, -⟩ := runFirst_some between rest
    have both : NumericLabels.runFirst st (s :: rest) = some ((s, ip) :: entries', st'') := by
      simp [NumericLabels.runFirst, step, run]
    obtain ⟨rfl, rfl⟩ := Prod.mk.inj (Option.some.inj (both.symm.trans result))
    have same : between.errors = st.errors :=
      (before.eq_of_length_le (quiet ▸ after.length_le)).symm
    obtain ⟨t', first, represents'⟩ := represents.firstPass step same
    obtain ⟨t'', later, represents''⟩ := ih represents' run (quiet.trans same.symm)
    exact ⟨t'', .cons first later, represents''⟩

/-- A report is never taken back, and without one no label is waited for. -/
theorem reportForw_foldl (labs : List (Fin 10)) (st : Fb) :
    st.errors <+: (labs.foldl reportForw st).errors ∧
      ((labs.foldl reportForw st).errors = st.errors →
        (∀ lab ∈ labs, st.fb_ptr .FORW lab = none) ∧ labs.foldl reportForw st = st) := by
  induction labs generalizing st with
  | nil => simp
  | cons lab labs ih =>
    rw [List.foldl_cons]
    cases waiting : st.fb_ptr .FORW lab with
    | none =>
      have same : reportForw st lab = st := by rw [reportForw, waiting]
      rw [same]
      refine ⟨(ih st).1, fun quiet => ?_⟩
      obtain ⟨others, result⟩ := (ih st).2 quiet
      exact ⟨List.forall_mem_cons.mpr ⟨waiting, others⟩, result⟩
    | some ip =>
      have reported : (reportForw st lab).errors = st.errors ++ [.undefinedLabel lab] := by
        rw [reportForw, waiting]
        rfl
      have grown := (ih (reportForw st lab)).1
      rw [reported] at grown
      refine ⟨(List.prefix_append _ _).trans grown, fun quiet => ?_⟩
      have length := grown.length_le
      rw [quiet, List.length_append, List.length_singleton] at length
      omega

theorem checkForw_errors (st : Fb) : st.errors <+: (checkForw st).errors :=
  (reportForw_foldl _ st).1

theorem checkForw_quiet (quiet : (checkForw st).errors = st.errors) :
    st.fb_ptr .FORW = (fun _ => none) ∧ checkForw st = st := by
  obtain ⟨nothing, same⟩ := (reportForw_foldl _ st).2 quiet
  exact ⟨funext fun lab => nothing lab (List.mem_finRange lab), same⟩

theorem checkForw_nothing (nothing : st.fb_ptr .FORW = fun _ => none) : checkForw st = st := by
  have step : ∀ lab, reportForw st lab = st := fun lab => by rw [reportForw, nothing]
  exact List.foldlRecOn (List.finRange 10) reportForw (motive := (· = st)) rfl
    fun st' same lab _ => same ▸ step lab

/-! ### Modules -/

/-- At the start of a module there is nothing behind. -/
def Table.enter (t : Table) : Table := { t with back := fun _ => none }

/-- Modules one after the other; at the end of each no label is waited for. -/
inductive Table.Modules : Table → List (List Entry) → Table → Prop
  | nil (t : Table) : Modules t [] t
  | cons {t between t' : Table} {entries : List Entry} {rest : List (List Entry)}
      (run : t.enter.Run entries between) (nothing : between.forw = fun _ => none)
      (modules : Modules between rest t') : Modules t (entries :: rest) t'

theorem parse_some (st : Fb) (statements : List Statement) :
    ∃ entries st', parse st statements = some (entries, st') ∧ st.errors <+: st'.errors ∧
      entries.map Prod.fst = statements := by
  obtain ⟨entries, st', run, errors, texts⟩ :=
    runFirst_some { st with fb_ptr := update st.fb_ptr .BACK fun _ => none } statements
  refine ⟨entries, checkForw st', ?_, errors.trans (checkForw_errors st'), texts⟩
  rw [parse, run]
  rfl

theorem parseAll_some (st : Fb) (modules : List (List Statement)) :
    ∃ all st', parseAll st modules = some (all, st') ∧ st.errors <+: st'.errors ∧
      all.map (·.map Prod.fst) = modules := by
  induction modules generalizing st with
  | nil => exact ⟨[], st, rfl, List.prefix_rfl, rfl⟩
  | cons statements rest ih =>
    obtain ⟨entries, between, first, before, texts⟩ := parse_some st statements
    obtain ⟨all, st', others, after, same⟩ := ih between
    refine ⟨entries :: all, st', ?_, before.trans after, ?_⟩
    · simp [parseAll, first, others]
    · rw [List.map_cons, texts, same]

theorem Represents.enter (represents : Represents st t) :
    Represents { st with fb_ptr := update st.fb_ptr .BACK fun _ => none } t.enter where
  forw := represents.forw
  back := update_self Ptr.BACK (fun _ => none) st.fb_ptr
  lists := represents.lists.congr rfl rfl rfl rfl

theorem Represents.parse (represents : Represents st t)
    (result : parse st statements = some (entries, st')) (quiet : st'.errors = st.errors) :
    ∃ t', t.enter.Run entries t' ∧ t'.forw = (fun _ => none) ∧ Represents st' t' := by
  obtain ⟨⟨entries', last⟩, run, same⟩ := Option.map_eq_some_iff.mp result
  obtain ⟨rfl, rfl⟩ := Prod.mk.inj same
  obtain ⟨entries'', last', run', before, -⟩ := runFirst_some
    { st with fb_ptr := update st.fb_ptr .BACK fun _ => none } statements
  obtain ⟨rfl, rfl⟩ := Prod.mk.inj (Option.some.inj (run.symm.trans run'))
  have unreported : last.errors = st.errors :=
    (before.eq_of_length_le (quiet ▸ (checkForw_errors last).length_le)).symm
  obtain ⟨t', steps, represents'⟩ := represents.enter.runFirst run unreported
  obtain ⟨nothing, unchanged⟩ := checkForw_quiet (quiet.trans unreported.symm)
  exact ⟨t', steps, represents'.forw.symm.trans nothing, unchanged.symm ▸ represents'⟩

variable {modules : List (List Statement)} {all : List (List Entry)}

theorem Represents.parseAll (represents : Represents st t)
    (result : parseAll st modules = some (all, st')) (quiet : st'.errors = st.errors) :
    ∃ t', t.Modules all t' ∧ Represents st' t' := by
  induction modules generalizing st t all with
  | nil =>
    obtain ⟨rfl, rfl⟩ := Prod.mk.inj (Option.some.inj result)
    exact ⟨t, .nil t, represents⟩
  | cons statements rest ih =>
    obtain ⟨entries, between, first, before, -⟩ := parse_some st statements
    obtain ⟨all', st'', others, after, -⟩ := parseAll_some between rest
    have both : NumericLabels.parseAll st (statements :: rest) = some (entries :: all', st'') := by
      simp [NumericLabels.parseAll, first, others]
    obtain ⟨rfl, rfl⟩ := Prod.mk.inj (Option.some.inj (both.symm.trans result))
    have same : between.errors = st.errors :=
      (before.eq_of_length_le (quiet ▸ after.length_le)).symm
    obtain ⟨t', run, nothing, represents'⟩ := represents.parse first same
    obtain ⟨t'', modules, represents''⟩ := ih represents' others (quiet.trans same.symm)
    exact ⟨t'', .cons run nothing modules, represents''⟩

namespace Table

variable {t t' : Table} {all : List (List Entry)}

theorem Modules.of_mem (modules : t.Modules all t')
    (member : entries ∈ all) :
    ∃ first last : Table, first.enter.Run entries last ∧ last.forw = fun _ => none := by
  induction modules with
  | nil t => exact nomatch member
  | @cons t between _ _ _ run nothing modules ih =>
    rcases List.mem_cons.mp member with rfl | member
    · exact ⟨t, between, run, nothing⟩
    · exact ih member

theorem Modules.defs_eq (modules : t.Modules all t') (lab : Fin 10) :
    t'.defs lab = t.defs lab ++ all.flatten.filterMap (itemOf lab) := by
  induction modules with
  | nil t => simp
  | @cons t between t' entries rest run nothing modules ih =>
    rw [ih, run.defs_eq lab, List.flatten_cons, List.filterMap_append, List.append_assoc]
    rfl

theorem Modules.forw_eq (modules : t.Modules all t') (nothing : t.forw = fun _ => none) :
    t'.forw = fun _ => none := by
  induction modules with
  | nil t => exact nothing
  | cons run between modules ih => exact ih between

end Table

/-! ### References of a module -/

/-- Each reference of a module has the item of the nearest definition on its side. -/
structure Resolved (entries : List Entry) : Prop where
  back : ∀ pre lab ip post, entries = pre ++ (.fbsym (backText lab), ip) :: post →
    nearestBefore lab pre = some ip
  forw : ∀ pre lab ip post, entries = pre ++ (.fbsym (forwText lab), ip) :: post →
    nearestAfter lab post = some ip

inductive Missing (statements : List Statement) : Prop
  | back {pre post : List Statement} {lab : Fin 10}
      (split : statements = pre ++ .fbsym (backText lab) :: post)
      (nothing : .label (lab : Nat) ∉ pre)
  | forw {pre post : List Statement} {lab : Fin 10}
      (split : statements = pre ++ .fbsym (forwText lab) :: post)
      (nothing : .label (lab : Nat) ∉ post)

/-- A statement is in order with `pre` before it and `post` behind it in the module. -/
inductive InOrder (pre post : List Statement) : Statement → Prop
  | label (lab : Fin 10) : InOrder pre post (.label (lab : Nat))
  | back {lab : Fin 10} (known : .label (lab : Nat) ∈ pre) :
      InOrder pre post (.fbsym (backText lab))
  | forw {lab : Fin 10} (later : .label (lab : Nat) ∈ post) :
      InOrder pre post (.fbsym (forwText lab))

theorem digit_toNat (lab : Fin 10) : (0x30 + UInt8.ofNat lab - 0x30).toNat = lab := by
  revert lab
  decide

theorem itemOf_eq_none {entry : Entry} :
    itemOf lab entry = none ↔ entry.1 ≠ .label (lab : Nat) := by
  unfold itemOf
  split <;> simp_all

theorem label_mem_of_before {pre : List Entry} (found : nearestBefore lab pre = some ip) :
    .label (lab : Nat) ∈ pre.map Prod.fst := by
  obtain ⟨entry, member, some⟩ := List.exists_of_findSome?_eq_some found
  by_contra nothing
  have apart : entry.1 ≠ .label (lab : Nat) := fun same =>
    nothing (List.mem_map.mpr ⟨entry, List.mem_reverse.mp member, same⟩)
  rw [itemOf_eq_none.mpr apart] at some
  exact nomatch some

theorem label_mem_of_after {post : List Entry} (found : nearestAfter lab post = some ip) :
    .label (lab : Nat) ∈ post.map Prod.fst := by
  obtain ⟨entry, member, some⟩ := List.exists_of_findSome?_eq_some found
  by_contra nothing
  have apart : entry.1 ≠ .label (lab : Nat) := fun same =>
    nothing (List.mem_map.mpr ⟨entry, member, same⟩)
  rw [itemOf_eq_none.mpr apart] at some
  exact nomatch some

variable {t' : Table}

/-- In a module without reports every reference is resolved. -/
theorem Table.Run.resolved (run : t.enter.Run entries t')
    (nothing : t'.forw = fun _ => none) : Resolved entries where
  back pre lab ip post split := by
    subst split
    obtain ⟨between, before, after⟩ := run.append
    have found := before.back_eq lab
    rw [show t.enter.back lab = none from rfl, Option.or_none] at found
    rw [← found]
    cases after with
    | cons step _ =>
      cases step with
      | @back other _ _ _ digit _ known =>
        have same : other = lab := Fin.ext (digit.symm.trans (digit_toNat lab))
        exact same ▸ known
  forw pre lab ip post split := by
    subst split
    obtain ⟨between, -, after⟩ := run.append
    cases after with
    | cons step rest =>
      cases step with
      | @forward other _ _ _ digit pending =>
        have same : other = lab := Fin.ext (digit.symm.trans (digit_toNat lab))
        subst same
        rcases rest.forw_eq (update_self ..) with found | ⟨-, waiting⟩
        · exact found
        · rw [nothing] at waiting
          exact nomatch waiting
      | back digit other known => exact absurd rfl other

theorem Resolved.not_missing (resolved : Resolved entries) :
    ¬ Missing (entries.map Prod.fst) := by
  rintro (⟨split, nothing⟩ | ⟨split, nothing⟩)
  · obtain ⟨pre, rest, rfl, rfl, behind⟩ := List.map_eq_append_iff.mp split
    obtain ⟨⟨s, ip⟩, post, rfl, rfl, -⟩ := List.map_eq_cons_iff.mp behind
    exact nothing (label_mem_of_before (resolved.back pre _ ip post rfl))
  · obtain ⟨pre, rest, rfl, rfl, behind⟩ := List.map_eq_append_iff.mp split
    obtain ⟨⟨s, ip⟩, post, rfl, rfl, rfl⟩ := List.map_eq_cons_iff.mp behind
    exact nothing (label_mem_of_after (resolved.forw pre _ ip post rfl))

/-! ### Modules in order report nothing -/

theorem Represents.firstPass_quiet (represents : Represents st t) {pre post : List Statement}
    {s : Statement} (inOrder : InOrder pre post s)
    (known : ∀ lab : Fin 10, .label (lab : Nat) ∈ pre → t.back lab ≠ none)
    (result : NumericLabels.firstPass st s = some (ip, st')) : st'.errors = st.errors := by
  cases inOrder with
  | label lab =>
    have digit : 0 ≤ ((lab : Nat) : Int) ∧ ((lab : Nat) : Int) ≤ 9 := by omega
    rw [NumericLabels.firstPass, labelNumber, dif_pos digit] at result
    obtain ⟨_, _, shift, quiet⟩ := fb_shift_first ⟨((lab : Nat) : Int).toNat, by omega⟩ st
    obtain ⟨rfl, rfl⟩ := Prod.mk.inj (Option.some.inj (shift.symm.trans result))
    exact quiet
  | @back lab before =>
    obtain ⟨ip', found⟩ := Option.ne_none_iff_exists'.mp (known lab before)
    have both : NumericLabels.infbsym st (backText lab) = (ip, st') := Option.some.inj result
    rw [backText, infbsym_back st (digit_toNat lab) (by decide), represents.back, found] at both
    exact congrArg Fb.errors (Prod.mk.inj both).2.symm
  | @forw lab later =>
    have both : NumericLabels.infbsym st (forwText lab) = (ip, st') := Option.some.inj result
    obtain ⟨_, _, forward, quiet, -⟩ := represents.forward [] (digit_toNat lab)
    obtain ⟨rfl, rfl⟩ := Prod.mk.inj (forward.symm.trans both)
    exact quiet

theorem Represents.runFirst_quiet (represents : Represents st t) {before : List Statement}
    (inOrder : ∀ pre s post, statements = pre ++ s :: post → InOrder (before ++ pre) post s)
    (known : ∀ lab : Fin 10, .label (lab : Nat) ∈ before → t.back lab ≠ none)
    (result : NumericLabels.runFirst st statements = some (entries, st')) :
    st'.errors = st.errors := by
  induction statements generalizing st t before entries with
  | nil =>
    obtain ⟨rfl, rfl⟩ := Prod.mk.inj (Option.some.inj result)
    rfl
  | cons s rest ih =>
    obtain ⟨ip, between, step, -⟩ := firstPass_some st s
    obtain ⟨entries', st'', run, -, -⟩ := runFirst_some between rest
    have both : NumericLabels.runFirst st (s :: rest) = some ((s, ip) :: entries', st'') := by
      simp [NumericLabels.runFirst, step, run]
    obtain ⟨rfl, rfl⟩ := Prod.mk.inj (Option.some.inj (both.symm.trans result))
    have here := inOrder [] s rest rfl
    rw [List.append_nil] at here
    have quiet := represents.firstPass_quiet here known step
    obtain ⟨t', first, represents'⟩ := represents.firstPass step quiet
    refine (@ih _ _ _ represents' (before ++ [s]) ?_ ?_ run).trans quiet
    · intro pre s' post split
      rw [List.append_assoc]
      exact inOrder (s :: pre) s' post (congrArg (s :: ·) split)
    · intro lab member
      rw [(Table.Run.cons first (.nil t')).back_eq lab]
      rcases List.mem_append.mp member with old | new
      · simp [known lab old]
      · rw [List.mem_singleton] at new
        simp [nearestBefore, itemOf, ← new]

/-- When every forward reference has a definition behind it, none is waited for at the end. -/
theorem Table.Run.forw_nothing (run : t.Run entries t')
    (inOrder : ∀ pre s post, entries.map Prod.fst = pre ++ s :: post →
      ∃ before, InOrder before post s)
    (waited : ∀ lab : Fin 10, t.forw lab ≠ none → .label (lab : Nat) ∈ entries.map Prod.fst) :
    t'.forw = fun _ => none := by
  induction run with
  | nil t =>
    funext lab
    by_contra waiting
    exact nomatch waited lab waiting
  | @cons t between t' s ip rest step run ih =>
    refine ih (fun pre s' post split => inOrder (s :: pre) s' post (congrArg (s :: ·) split)) ?_
    intro lab waiting
    obtain ⟨before, here⟩ := inOrder [] s _ rfl
    cases step with
    | @define other _ pending =>
      by_cases same : lab = other
      · subst same
        simp [define] at waiting
      · have kept : (t.define other ip).forw lab = t.forw lab := update_of_ne same _ _
        rw [kept] at waiting
        rcases List.mem_cons.mp (waited lab waiting) with first | later
        · rw [Statement.label.injEq, Int.natCast_inj, Fin.val_inj] at first
          exact absurd first same
        · exact later
    | @forward other _ c p digit pending =>
      by_cases same : lab = other
      · subst same
        cases here with
        | @forw named later =>
          have same : lab = named := Fin.ext (digit.symm.trans (digit_toNat named))
          exact same ▸ later
      · have kept : (t.await other ip).forw lab = t.forw lab := update_of_ne same _ _
        rw [kept] at waiting
        exact (List.mem_cons.mp (waited lab waiting)).resolve_left nofun
    | back digit other known =>
      exact (List.mem_cons.mp (waited lab waiting)).resolve_left nofun

theorem Represents.parse_quiet (represents : Represents st t) (nothing : t.forw = fun _ => none)
    (inOrder : ∀ pre s post, statements = pre ++ s :: post → InOrder pre post s)
    (result : NumericLabels.parse st statements = some (entries, st')) :
    st'.errors = st.errors := by
  obtain ⟨⟨entries', last⟩, run, same⟩ := Option.map_eq_some_iff.mp result
  obtain ⟨rfl, rfl⟩ := Prod.mk.inj same
  obtain ⟨entries'', last', run', -, texts⟩ := runFirst_some
    { st with fb_ptr := update st.fb_ptr .BACK fun _ => none } statements
  obtain ⟨rfl, rfl⟩ := Prod.mk.inj (Option.some.inj (run.symm.trans run'))
  have quiet : last.errors = st.errors := by
    have known : ∀ lab : Fin 10, Statement.label (lab : Nat) ∈ [] → t.enter.back lab ≠ none := nofun
    have later := represents.enter.runFirst_quiet inOrder known run
    exact later
  obtain ⟨t', steps, represents'⟩ := represents.enter.runFirst run quiet
  have done : t'.forw = fun _ => none := by
    refine steps.forw_nothing (fun pre s post split => ⟨pre, inOrder pre s post ?_⟩) ?_
    · rw [← texts, split]
    · intro lab waiting
      rw [show t.enter.forw = t.forw from rfl, nothing] at waiting
      exact absurd rfl waiting
  rw [checkForw_nothing (represents'.forw.trans done)]
  exact quiet

theorem Represents.parseAll_quiet (represents : Represents st t) (nothing : t.forw = fun _ => none)
    (inOrder : ∀ statements ∈ modules, ∀ pre s post, statements = pre ++ s :: post →
      InOrder pre post s) (result : NumericLabels.parseAll st modules = some (all, st')) :
    st'.errors = st.errors := by
  induction modules generalizing st t all with
  | nil =>
    obtain ⟨rfl, rfl⟩ := Prod.mk.inj (Option.some.inj result)
    rfl
  | cons statements rest ih =>
    obtain ⟨entries, between, first, -, -⟩ := parse_some st statements
    obtain ⟨all', st'', others, -, -⟩ := parseAll_some between rest
    have both : NumericLabels.parseAll st (statements :: rest) = some (entries :: all', st'') := by
      simp [NumericLabels.parseAll, first, others]
    obtain ⟨rfl, rfl⟩ := Prod.mk.inj (Option.some.inj (both.symm.trans result))
    obtain ⟨here, later⟩ := List.forall_mem_cons.mp inOrder
    have quiet := represents.parse_quiet nothing here first
    obtain ⟨t', -, done, represents'⟩ := represents.parse first quiet
    exact (ih represents' done later others).trans quiet

/-! ### Later passes -/

def definitions (lab : Fin 10) (entries : List Entry) : List Item := entries.filterMap (itemOf lab)

theorem Table.Run.label_number (run : t.Run entries t') :
    ∀ entry ∈ entries, ∀ n, entry.1 = .label n → ∃ lab : Fin 10, n = (lab : Nat) := by
  induction run with
  | nil t => exact nofun
  | cons step run ih =>
    refine List.forall_mem_cons.mpr ⟨fun n same => ?_, ih⟩
    cases step with
    | define pending => exact ⟨_, (Statement.label.inj same).symm⟩
    | forward digit pending => exact nomatch same
    | back digit other known => exact nomatch same

theorem Table.Modules.label_number (modules : t.Modules all t') :
    ∀ entry ∈ all.flatten, ∀ n, entry.1 = .label n → ∃ lab : Fin 10, n = (lab : Nat) := by
  intro entry member
  obtain ⟨entries, inside, member⟩ := List.mem_flatten.mp member
  obtain ⟨_, _, run, -⟩ := modules.of_mem inside
  exact run.label_number entry member

theorem fb_shift_later (pass1 : Bool) (cursor : st.fb_ptr .FORW lab = some ip) :
    fb_shift pass1 lab st =
      some (ip, (st.setPtr .BACK lab (some ip)).setPtr .FORW lab (st.i_next ip)) := by
  simp [fb_shift, cursor]

theorem labelNumber_digit (lab : Fin 10) (st : Fb) : labelNumber (lab : Nat) st = (lab, st) := by
  have digit : 0 ≤ ((lab : Nat) : Int) ∧ ((lab : Nat) : Int) ≤ 9 := by omega
  rw [labelNumber, dif_pos digit]
  rfl

/-- While the cursor of each label stands at its next definition, a later pass gives every use
the item it had. -/
theorem runLater_same (digits : ∀ entry ∈ entries, ∀ n, entry.1 = .label n → ∃ lab : Fin 10, n = (lab : Nat))
    (linked : ∀ lab, Follows st.i_next (definitions lab entries) none)
    (cursor : ∀ lab, st.fb_ptr .FORW lab = (definitions lab entries).head?) :
    ∃ st', runLater st entries = some (entries, st') ∧ st'.i_next = st.i_next ∧
      st'.fb_ptr .HEAD = st.fb_ptr .HEAD := by
  induction entries generalizing st with
  | nil => exact ⟨st, rfl, rfl, rfl⟩
  | cons entry rest ih =>
    obtain ⟨s, ip⟩ := entry
    obtain ⟨here, later⟩ := List.forall_mem_cons.mp digits
    cases s with
    | label n =>
      obtain ⟨lab, rfl⟩ := here n rfl
      have own : definitions lab ((.label (lab : Nat), ip) :: rest) =
          ip :: definitions lab rest := by
        simp [definitions, itemOf]
      have others : ∀ other, other ≠ lab →
          definitions other ((.label (lab : Nat), ip) :: rest) = definitions other rest := by
        intro other different
        rw [definitions, List.filterMap_cons, itemOf_label, if_neg (Ne.symm different)]
        rfl
      have next : st.i_next ip = (definitions lab rest).head? := by
        have chain := linked lab
        rw [own] at chain
        exact chain.1.trans Option.or_none
      have shift := fb_shift_later false ((cursor lab).trans (congrArg List.head? own))
      obtain ⟨st', run, nexts, heads⟩ := @ih (
        (st.setPtr .BACK lab (some ip)).setPtr .FORW lab (st.i_next ip)) later
        (fun other => by
          by_cases same : other = lab
          · subst same
            have chain := linked other
            rw [own] at chain
            exact chain.2
          · exact others other same ▸ linked other)
        (fun other => by
          rw [setCursors_forw]
          by_cases same : other = lab
          · subst same
            rw [update_self, next]
          · rw [update_of_ne same, cursor, others other same])
      refine ⟨st', ?_, nexts, heads.trans (by simp [Fb.setPtr])⟩
      simp [runLater, laterPass, labelNumber_digit, shift, run]
    | fbsym num =>
      obtain ⟨st', run, nexts, heads⟩ := ih later linked cursor
      exact ⟨st', by simp [runLater, laterPass, run], nexts, heads⟩

theorem pass_23_same {st : Fb}
    (digits : ∀ entry ∈ entries, ∀ n, entry.1 = .label n → ∃ lab : Fin 10, n = (lab : Nat))
    (linked : ∀ lab, Follows st.i_next (definitions lab entries) none)
    (head : ∀ lab, st.fb_ptr .HEAD lab = (definitions lab entries).head?) :
    ∃ st', pass_23 st entries = some (entries, st') ∧ st'.i_next = st.i_next ∧
      st'.fb_ptr .HEAD = st.fb_ptr .HEAD :=
  runLater_same digits linked fun lab =>
    (congrFun (update_self Ptr.FORW (st.fb_ptr .HEAD) st.fb_ptr) lab).trans (head lab)

theorem Represents.start : Represents Fb.start ⟨fun _ => [], fun _ => none, fun _ => none⟩ where
  forw := rfl
  back := rfl
  lists := ⟨fun _ => rfl, fun _ => rfl, fun _ => trivial, nofun, nofun⟩

/-- Every definition of a numeric label in a program has an item of its own, every reference has
the item of the nearest definition on its side in its module, and the later passes give the
same items again. -/
structure Settled (all : List (List Entry)) (st : Fb) : Prop where
  nodup : ∀ lab, (definitions lab all.flatten).Nodup
  apart : ∀ lab other, lab ≠ other →
    ∀ ip ∈ definitions lab all.flatten, ip ∉ definitions other all.flatten
  resolved : ∀ entries ∈ all, Resolved entries
  passes : ∃ second third, pass_23 st all.flatten = some (all.flatten, second) ∧
    pass_23 second all.flatten = some (all.flatten, third)

theorem settled_of_quiet (result : parseAll Fb.start modules = some (all, st))
    (quiet : st.errors = []) : Settled all st := by
  obtain ⟨t, run, represents⟩ := Represents.start.parseAll result quiet
  have nothing := run.forw_eq rfl
  have chain : ∀ lab, t.chain lab = definitions lab all.flatten := by
    intro lab
    rw [Table.chain, nothing, run.defs_eq lab, Option.toList_none, List.append_nil,
      List.nil_append, definitions]
  have linked : ∀ lab, Follows st.i_next (definitions lab all.flatten) none := fun lab =>
    chain lab ▸ represents.lists.linked lab
  have head : ∀ lab, st.fb_ptr .HEAD lab = (definitions lab all.flatten).head? := fun lab =>
    chain lab ▸ represents.lists.head lab
  refine ⟨fun lab => follows_nodup (linked lab), ?_, ?_, ?_⟩
  · intro lab other different ip
    rw [← chain lab, ← chain other]
    exact represents.lists.apart lab other different ip
  · intro entries member
    obtain ⟨_, _, steps, done⟩ := run.of_mem member
    exact steps.resolved done
  · obtain ⟨second, pass2, nexts, heads⟩ := pass_23_same run.label_number linked head
    obtain ⟨third, pass3, -, -⟩ := @pass_23_same _ second run.label_number
      (fun lab => nexts ▸ linked lab) (fun lab => heads ▸ head lab)
    exact ⟨second, third, pass2, pass3⟩

/-- The first pass gives every use of a numeric label an item; without a report the references
are resolved in all passes.  A reference that has no definition on its side is reported, and
nothing is reported for modules in order. -/
theorem numeric_labels_resolved (modules : List (List Statement)) :
    ∃ all st, parseAll Fb.start modules = some (all, st) ∧
      all.map (·.map Prod.fst) = modules ∧
      (st.errors = [] → Settled all st) ∧
      ((∃ statements ∈ modules, Missing statements) → st.errors ≠ []) ∧
      ((∀ statements ∈ modules, ∀ pre s post, statements = pre ++ s :: post →
        InOrder pre post s) → st.errors = []) := by
  obtain ⟨all, st, result, -, texts⟩ := parseAll_some Fb.start modules
  refine ⟨all, st, result, texts, settled_of_quiet result, ?_, fun inOrder => ?_⟩
  · rintro ⟨statements, member, missing⟩ quiet
    rw [← texts] at member
    obtain ⟨entries, inside, rfl⟩ := List.mem_map.mp member
    exact ((settled_of_quiet result quiet).resolved entries inside).not_missing missing
  · exact Represents.start.parseAll_quiet rfl inOrder result

/-- `1: 1b 1f 1: 1b` -/
example : (parseAll Fb.start [[.label 1, .fbsym (backText 1), .fbsym (forwText 1), .label 1,
      .fbsym (backText 1)]]).map (fun result => result.1.map (·.map Prod.snd)) =
    some [[0, 0, 1, 1, 1]] := by decide

end AckFormal.As.NumericLabels
