import AckFormal.Led.LinkTotal

/-!
# Alignment of the modules in a section

Led rounds the size of a section up to the alignment that the module itself asks
for, so the next module starts at a multiple of the alignment of the modules before
it, not of its own.
-/

namespace AckFormal.Led

def Module.lign (modul : Module) (s : Nat) : Nat := (modul.sect s).lign.toNat

/-- Module number `k` is where its alignment of section `s` wants it: the origin that
its fields are relocated with, its bytes in the section, and the labels that are
aligned in the module, if the base of the section is aligned.  The last is for
alignments that divide the size of the address space. -/
structure AlignedAt (flags : Flags) (undefs : List Str) (moduls : List Module) (scan : Scan)
    (k : Nat) (modul : Module) (saved : Saved) (s : Nat) : Prop where
  origin : (modul.lign s : Int) ∣ originsAfter (fun _ => 0) (scan.saved.take k) s
  bytes : modul.flen s ≠ 0 → modul.lign s ∣ saved.emitindex s
  labels : modul.lign s ∣ 4294967296 → ∀ before,
    firstPass flags undefs (moduls.take k) = some before →
    ∀ name ∈ modul.names, name.located = true → styp name.type - sMin = s →
    modul.lign s ∣ name.valu.toNat → ∀ changed,
    namerelocate before.relorig name = some changed →
    ∀ base : BitVec 32, modul.lign s ∣ base.toNat → modul.lign s ∣ (changed.valu + base).toNat

/-- Every section of every module is where its alignment wants it. -/
def Aligned (flags : Flags) (undefs : List Str) (moduls : List Module) (scan : Scan) : Prop :=
  ∀ (k : Nat) (modul : Module) (saved : Saved), moduls[k]? = some modul →
    scan.saved[k]? = some saved → ∀ s, 1 < modul.lign s →
    AlignedAt flags undefs moduls scan k modul saved s

theorem dvd_add_mod {a : Nat} (power : a ∣ 4294967296) {x y : BitVec 32} (inX : a ∣ x.toNat)
    (inY : a ∣ y.toNat) : a ∣ (x + y).toNat := by
  exact (Nat.dvd_mod_iff power).mpr (Nat.dvd_add inX inY)

section Alignment

variable {flags : Flags} {undefs : List Str} {moduls : List Module} {scan : Scan}

theorem Aligned.sum_dvd (aligned : Aligned flags undefs moduls scan) (placed : Placed moduls scan)
    {k : Nat} {modul : Module} (atK : moduls[k]? = some modul) {s : Nat}
    (asks : 1 < modul.lign s) : modul.lign s ∣ start (moduls.take k) s := by
  obtain ⟨saved, savedK, _⟩ := modul_saved placed atK
  have origin := (aligned k modul saved atK savedK s asks).origin
  rw [placed.originsAfter_take] at origin
  exact Int.natCast_dvd_natCast.mp origin

theorem alignedAt_of_dvd (placed : Placed moduls scan) {k : Nat} {modul : Module} {saved : Saved}
    (atK : moduls[k]? = some modul) (savedK : scan.saved[k]? = some saved) {s : Nat}
    (here : modul.lign s ∣ start (moduls.take k) s) :
    AlignedAt flags undefs moduls scan k modul saved s := by
  constructor
  · rw [placed.originsAfter_take]
    exact Int.natCast_dvd_natCast.mpr here
  · intro bytes
    rw [placed.emitindex k modul saved atK savedK s bytes]
    exact here
  · intro power before ran name _ located inSection label changed relocated base aligned
    rw [namerelocate_some (firstPass_placed ran) relocated, placed_valu located, inSection]
    apply dvd_add_mod power _ aligned
    apply dvd_add_mod power label
    exact (Nat.dvd_mod_iff power).mpr here

end Alignment

/-- Modules get the alignment that they ask for if and only if, for each of them, the
rounded sizes of the modules before it add up to a multiple of it. -/
theorem firstPass_aligned_iff (flags : Flags) (undefs : List Str) (moduls : List Module)
    (scan : Scan) (ran : firstPass flags undefs moduls = some scan) :
    Aligned flags undefs moduls scan ↔
      ∀ (k : Nat) (modul : Module), moduls[k]? = some modul → ∀ s, 1 < modul.lign s →
        modul.lign s ∣ ((moduls.take k).map fun earlier => earlier.room s).sum := by
  have placed := firstPass_placed ran
  constructor
  · intro aligned k modul atK s asks
    exact aligned.sum_dvd placed atK asks
  · intro sums k modul saved atK savedK s asks
    exact alignedAt_of_dvd placed atK savedK (sums k modul atK s asks)

def oddModule : Module where
  sects := [⟨3, 3, 1, fun _ => 1⟩]
  relos := []
  names := []
  nemit := 3

theorem oddModule_wellFormed : oddModule.WellFormed where
  few := by decide
  counts := by decide
  flen := by
    intro s
    cases s with
    | zero => decide
    | succ s => simp [Module.flen, Module.sect, oddModule, default]
  nemit := by decide
  located := by decide
  crs := by decide
  common := by decide
  inside := by simp [oddModule]
  refers := by simp [oddModule]
  apart := List.Pairwise.nil

theorem oneSection_rounding {modul : Module} (one : modul.sects.length = 1)
    (first : (modul.sect 0).size.toNat + (modul.sect 0).lign.toNat - 1 < 4294967296) (s : Nat) :
    (modul.sect s).lign.toNat ≤ 1 ∨
      (modul.sect s).size.toNat + (modul.sect s).lign.toNat - 1 < 4294967296 := by
  cases s with
  | zero => exact Or.inr first
  | succ s =>
    rw [sect_of_le (by omega)]
    decide

theorem firstPass_two {first second : Module} (firstGood : first.WellFormed)
    (secondGood : second.WellFormed)
    (rounding : ∀ modul ∈ [first, second], ∀ s, (modul.sect s).lign.toNat ≤ 1 ∨
      (modul.sect s).size.toNat + (modul.sect s).lign.toNat - 1 < 4294967296) :
    ∃ scan, firstPass basedFlags [] [first, second] = some scan := by
  apply firstPass_isSome basedFlags []
  · intro modul member
    simp only [List.mem_cons, List.not_mem_nil, or_false] at member
    rcases member with rfl | rfl
    · exact firstGood
    · exact secondGood
  · exact rounding

theorem firstPass_aligned_after_aligned :
    ∃ scan, firstPass basedFlags [] [definingModule, referringModule] = some scan ∧
      Aligned basedFlags [] [definingModule, referringModule] scan := by
  obtain ⟨scan, ran⟩ := firstPass_two definingModule_wellFormed referringModule_wellFormed (by
    intro modul member
    simp only [List.mem_cons, List.not_mem_nil, or_false] at member
    rcases member with rfl | rfl
    · exact oneSection_rounding rfl (by decide)
    · exact oneSection_rounding rfl (by decide))
  refine ⟨scan, ran, (firstPass_aligned_iff _ _ _ scan ran).mpr ?_⟩
  intro k modul atK s asks
  match k with
  | 0 => exact Nat.dvd_zero _
  | 1 =>
    cases atK
    cases s with
    | zero => decide
    | succ s => exact absurd asks (by simp [Module.lign, Module.sect, referringModule, default])
  | k + 2 => cases atK

/-- The four bytes that ask for alignment 4 start at offset 3. -/
theorem firstPass_unaligned_after_odd :
    ∃ (moduls : List Module) (scan : Scan), (∀ modul ∈ moduls, modul.WellFormed) ∧
      firstPass basedFlags [] moduls = some scan ∧ ¬Aligned basedFlags [] moduls scan := by
  obtain ⟨scan, ran⟩ := firstPass_two oddModule_wellFormed referringModule_wellFormed (by
    intro modul member
    simp only [List.mem_cons, List.not_mem_nil, or_false] at member
    rcases member with rfl | rfl
    · exact oneSection_rounding rfl (by decide)
    · exact oneSection_rounding rfl (by decide))
  refine ⟨[oddModule, referringModule], scan, ?_, ran, ?_⟩
  · intro modul member
    simp only [List.mem_cons, List.not_mem_nil, or_false] at member
    rcases member with rfl | rfl
    · exact oddModule_wellFormed
    · exact referringModule_wellFormed
  · intro aligned
    have divides := aligned.sum_dvd (firstPass_placed ran) (k := 1) rfl (s := 0) (by decide)
    exact absurd divides (by decide)

end AckFormal.Led
