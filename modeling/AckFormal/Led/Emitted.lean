import AckFormal.Led.Modules

/-!
# The bytes in the output file

The header says how many bytes the sections take together, and every section is
where its entry in the section table says.
-/

namespace AckFormal.Led

section Emitted

variable {flags : Flags} {undefs : List Str} {moduls : List Module} {scan scan' : Scan}

theorem foldl_add (list : List Nat) (f : Nat → BitVec 32) (first : BitVec 32) :
    list.foldl (fun sum s => sum + f s) first = first + (list.map f).sum := by
  induction list generalizing first with
  | nil => simp
  | cons s rest ih => rw [List.foldl_cons, ih, List.map_cons, List.sum_cons, BitVec.add_assoc]

theorem sum_range_extend {M : Type*} [AddCommMonoid M] (f : Nat → M) {m n : Nat} (short : m ≤ n)
    (zero : ∀ s, m ≤ s → f s = 0) :
    ((List.range n).map f).sum = ((List.range m).map f).sum := by
  induction n with
  | zero =>
    have equal : m = 0 := by omega
    rw [equal]
  | succ n ih =>
    by_cases equal : m = n + 1
    · rw [equal]
    · rw [List.range_succ, List.map_append, List.sum_append, ih (by omega)]
      simp [zero n (by omega)]

theorem sum_flen (modul : Module) :
    ((List.range modul.sects.length).map modul.flen).sum =
      (modul.sects.map fun sect => sect.flen.toNat).sum := by
  congr 1
  apply List.ext_getElem
  · simp
  · intro i bound _
    have inSects : i < modul.sects.length := by simpa using bound
    simp [Module.flen, Module.sect, inSects]

/-- The zeros before a section and its bytes are what a section grows by. -/
theorem Placed.stop_grows (placed : Placed moduls scan) (modul : Module) (s : Nat) :
    BitVec.ofNat 32 (stop (moduls ++ [modul]) s) = BitVec.ofNat 32 (stop moduls s) +
      BitVec.ofNat 32 (modul.flen s) + gap (scan.outsect s) (modul.sect s).rounded := by
  rw [stop_append, gap]
  by_cases empty : modul.flen s = 0
  · simp [empty, flen_eq_zero empty]
  · rw [if_pos empty, if_pos (flen_ne_zero empty), placed.size, placed.flen, BitVec.ofNat_add]
    ring

theorem Placed.sum_grows (placed : Placed moduls scan) (modul : Module) (n : Nat) :
    BitVec.ofNat 32 ((List.range n).map (stop (moduls ++ [modul]))).sum =
      BitVec.ofNat 32 ((List.range n).map (stop moduls)).sum +
        (BitVec.ofNat 32 ((List.range n).map modul.flen).sum +
          ((List.range n).map fun s => gap (scan.outsect s) (modul.sect s).rounded).sum) := by
  induction n with
  | zero => simp
  | succ n ih =>
    simp only [List.range_succ, List.map_append, List.sum_append, List.map_cons, List.map_nil,
      List.sum_cons, List.sum_nil, BitVec.ofNat_add, ih, placed.stop_grows, Nat.add_zero]
    ring

theorem firstPass_nemit (wellFormed : ∀ modul ∈ moduls, modul.WellFormed)
    (ran : firstPass flags undefs moduls = some scan) :
    scan.nemit = BitVec.ofNat 32 ((List.range maxsect).map (stop moduls)).sum := by
  have both : Placed moduls scan ∧
      scan.nemit = BitVec.ofNat 32 ((List.range maxsect).map (stop moduls)).sum := by
    apply Lib.foldlM_invariant
      (fun done scan => Placed done scan ∧
        scan.nemit = BitVec.ofNat 32 ((List.range maxsect).map (stop done)).sum)
      ⟨Placed.initial undefs, by simp [Scan.initial, stop]⟩ _ ran
    rintro done modul before after member ⟨placed, counted⟩ read
    obtain ⟨_, _, _, _, _, _, _, _, _, _, _, nemit⟩ := extract_some read
    have good := wellFormed modul member
    refine ⟨placed.extract read, ?_⟩
    have noGap : ∀ s, modul.sects.length ≤ s →
        gap (before.outsect s) (modul.sect s).rounded = 0 := by
      intro s absent
      rw [gap, if_neg]
      rw [not_not]
      exact flen_eq_zero (flen_of_le absent)
    rw [nemit, foldl_add, counted, placed.sum_grows modul, good.nemit, ← sum_flen,
      sum_range_extend modul.flen good.few (fun s absent => flen_of_le absent),
      sum_range_extend (fun s => gap (before.outsect s) (modul.sect s).rounded) good.few noGap,
      BitVec.add_assoc]
  exact both.2

end Emitted

/-! ## The file -/

/-- A byte of a section is at its place in the file, if no later section covers it. -/
theorem file_at {out : Output} {s i : Nat} (bound : i < (out.emits s).full) (few : s < maxsect)
    (later : ∀ t, s < t → t < maxsect → (out.emits t).full = 0 ∨
      (out.outsect s).foff.toNat + i < (out.outsect t).foff.toNat) :
    out.file ((out.outsect s).foff.toNat + i) = (out.emits s).bytes i := by
  have general : ∀ n, s < n → n ≤ maxsect →
      (List.range n).foldl
        (fun file s => ((⟨(out.outsect s).foff.toNat, file⟩ : Piece).append (out.emits s).full
          (out.emits s).bytes).bytes) (fun _ => 0) ((out.outsect s).foff.toNat + i) =
        (out.emits s).bytes i := by
    intro n
    induction n with
    | zero =>
      intro impossible
      omega
    | succ n ih =>
      intro below within
      rw [List.range_succ, List.foldl_append, List.foldl_cons, List.foldl_nil]
      by_cases same : s = n
      · subst same
        exact Piece.append_inside bound
      · have earlier := ih (by omega) (by omega)
        rw [Piece.append_outside]
        · exact earlier
        simp only
        rcases later n (by omega) (by omega) with empty | before
        · omega
        · omega
  exact general maxsect few (Nat.le_refl _)

end AckFormal.Led
