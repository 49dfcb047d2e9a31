import Covenant.Proofs.Failure
import Covenant.Proofs.Symbolic.LinearForm
import Mathlib.Tactic.Linarith

/-!
Eliminating an unknown from facts. What that makes is true wherever the facts are, and mentions the
unknown no more and no other unknowns than the facts do. It fails for no other reason than size
unless a fact has the least coefficient.
-/

namespace Covenant

namespace Constraints

variable {assignment : SymbolId → Nat} {atom : SymbolId} {facts : List LinearForm}
  {fact : LinearForm}

/-! The unknowns of facts. -/

theorem atomsOf_eq (facts : List LinearForm) :
    atomsOf facts = (facts.flatMap LinearForm.atoms).foldl
      (fun known atom => insertAtom atom known) [] := by
  rw [atomsOf, List.foldl_flatMap]

theorem mem_atomsOf : atom ∈ atomsOf facts ↔ ∃ fact ∈ facts, atom ∈ fact.atoms := by
  rw [atomsOf_eq, mem_insertAtoms, List.mem_flatMap]
  simp

theorem nodup_atomsOf (facts : List LinearForm) : (atomsOf facts).Nodup := by
  rw [atomsOf_eq]
  exact (ordered_insertAtoms List.Pairwise.nil).imp Nat.ne_of_lt

theorem mem_of_cheapest? {cost : SymbolId → Nat} {atoms : List SymbolId}
    (found : cheapest? cost atoms = some atom) :
    atom ∈ atoms := by
  induction atoms with
  | nil => simp [cheapest?] at found
  | cons first rest ih =>
    simp only [cheapest?] at found
    split at found
    · obtain rfl := Option.some.inj found
      exact List.mem_cons_self
    · rename_i other later
      split at found
      · obtain rfl := Option.some.inj found
        exact List.mem_cons_of_mem _ (ih later)
      · obtain rfl := Option.some.inj found
        exact List.mem_cons_self

/-! What eliminating an unknown makes. -/

inductive Follows (atom : SymbolId) (facts : List LinearForm) : LinearForm → Prop where
  | kept {fact : LinearForm} (member : fact ∈ facts) (absent : atom ∉ fact.atoms) :
      Follows atom facts fact
  | combined {upper lower : Int × LinearForm} {sum : LinearForm} (above : upper.2 ∈ facts)
      (below : lower.2 ∈ facts) (positive : 0 < upper.1) (negative : lower.1 ≤ 0)
      (inUpper : (atom, upper.1) ∈ upper.2.terms) (inLower : (atom, lower.1) ∈ lower.2.terms)
      (made : combine? upper lower = some sum) : Follows atom facts sum

theorem mem_splitAt (atom : SymbolId) (facts : List LinearForm) :
    (∀ entry ∈ (splitAt atom facts).1, 0 < entry.1 ∧ entry.2 ∈ facts ∧
      (atom, entry.1) ∈ entry.2.terms) ∧
      (∀ entry ∈ (splitAt atom facts).2.1, entry.1 ≤ 0 ∧ entry.2 ∈ facts ∧
        (atom, entry.1) ∈ entry.2.terms) ∧
      ∀ fact ∈ (splitAt atom facts).2.2, fact ∈ facts ∧ atom ∉ fact.atoms := by
  refine ⟨?_, ?_, ?_⟩
  · intro entry member
    simp only [splitAt, List.mem_filterMap, Option.bind_eq_some_iff] at member
    obtain ⟨fact, inside, coefficient, found, chosen⟩ := member
    split at chosen
    · rename_i positive
      obtain rfl := Option.some.inj chosen
      exact ⟨positive, inside, mem_of_lookup found⟩
    · simp at chosen
  · intro entry member
    simp only [splitAt, List.mem_filterMap, Option.bind_eq_some_iff] at member
    obtain ⟨fact, inside, coefficient, found, chosen⟩ := member
    split at chosen
    · simp at chosen
    · rename_i other
      obtain rfl := Option.some.inj chosen
      exact ⟨Int.not_lt.mp other, inside, mem_of_lookup found⟩
  · intro fact member
    obtain ⟨inside, none⟩ := List.mem_filter.mp member
    refine ⟨inside, ?_⟩
    intro mentioned
    obtain ⟨coefficient, held⟩ := LinearForm.mem_atoms.mp mentioned
    rw [LinearForm.coefficientOf?, Option.isNone_iff_eq_none, List.lookup_eq_none_iff] at none
    simpa using none _ held

theorem mem_pairs {upper lower : Int × LinearForm} {uppers lowers : List (Int × LinearForm)}
    (member : (upper, lower) ∈ uppers.flatMap fun upper => lowers.map fun lower => (upper, lower)) :
    upper ∈ uppers ∧ lower ∈ lowers := by
  obtain ⟨first, inUppers, paired⟩ := List.mem_flatMap.mp member
  obtain ⟨second, inLowers, same⟩ := List.mem_map.mp paired
  obtain ⟨rfl, rfl⟩ := Prod.mk.inj same
  exact ⟨inUppers, inLowers⟩

theorem combination_eq_ok {upper lower : Int × LinearForm} {sum : LinearForm}
    (made : combination upper lower = .ok sum) : combine? upper lower = some sum := by
  unfold combination at made
  split at made
  · simp at made
  · split at made
    · rename_i found
      rw [found, Except.ok.inj made]
    · simp at made

theorem combination_eq_overflow {upper lower : Int × LinearForm}
    (failed : combination upper lower = .error .overflow) : lower.1 = -coefficientBound := by
  unfold combination at failed
  split at failed
  · assumption
  · split at failed <;> simp at failed

theorem follows_of_eliminate {next : List LinearForm}
    (eliminated : eliminate atom facts = .ok next) :
    ∀ fact ∈ next, Follows atom facts fact := by
  obtain ⟨uppers, lowers, others⟩ := mem_splitAt atom facts
  simp only [eliminate] at eliminated
  split at eliminated
  · simp at eliminated
  · obtain ⟨combined, mapped, done⟩ := chain_eq_ok.mp eliminated
    obtain rfl := Except.ok.inj done
    intro fact member
    rcases List.mem_append.mp member with old | new
    · exact .kept (others fact old).1 (others fact old).2
    · obtain ⟨⟨upper, lower⟩, paired, made⟩ := mem_of_mapM_eq_ok mapped new
      obtain ⟨inUppers, inLowers⟩ := mem_pairs paired
      obtain ⟨positive, above, inUpper⟩ := uppers upper inUppers
      obtain ⟨negative, below, inLower⟩ := lowers lower inLowers
      exact .combined above below positive negative inUpper inLower (combination_eq_ok made)

theorem least_of_eliminate (failed : eliminate atom facts = .error .overflow) :
    ∃ fact ∈ facts, ∃ term ∈ fact.terms, term.2 = -coefficientBound := by
  obtain ⟨-, lowers, -⟩ := mem_splitAt atom facts
  simp only [eliminate] at failed
  split at failed
  · simp at failed
  · cases mapped : ((splitAt atom facts).1.flatMap fun upper =>
        (splitAt atom facts).2.1.map fun lower => (upper, lower)).mapM fun pair =>
          combination pair.1 pair.2 with
    | ok combined =>
      rw [mapped] at failed
      simp [bind, Except.bind, pure, Except.pure] at failed
    | error problem =>
      rw [mapped] at failed
      obtain rfl := Except.error.inj failed
      obtain ⟨⟨upper, lower⟩, paired, overflows⟩ := exists_of_mapM_eq_error mapped
      obtain ⟨-, below, inLower⟩ := lowers lower (mem_pairs paired).2
      exact ⟨lower.2, below, _, inLower, combination_eq_overflow overflows⟩

namespace Follows

theorem mono {others : List LinearForm} (follows : Follows atom facts fact)
    (part : ∀ fact ∈ facts, fact ∈ others) :
    Follows atom others fact := by
  cases follows with
  | kept member absent => exact .kept (part _ member) absent
  | combined above below positive negative inUpper inLower made =>
    exact .combined (part _ above) (part _ below) positive negative inUpper inLower made

theorem holds (follows : Follows atom facts fact) (hold : ∀ fact ∈ facts, Holds assignment fact) :
    Holds assignment fact := by
  cases follows with
  | kept member _ => exact hold _ member
  | @combined upper lower _ above below positive negative _ _ made =>
    simp only [combine?, Option.bind_eq_bind, Option.bind_eq_some_iff, Option.pure_def,
      Option.some.injEq] at made
    obtain ⟨left, scaledUpper, right, scaledLower, sum, added, rfl⟩ := made
    unfold Holds
    apply LinearForm.eval_tighten
    rw [LinearForm.eval_add? _ added, LinearForm.eval_scale? _ scaledUpper,
      LinearForm.eval_scale? _ scaledLower]
    have first := Int.mul_nonneg (by omega : 0 ≤ -lower.1) (hold _ above)
    have second := Int.mul_nonneg (Int.le_of_lt positive) (hold _ below)
    omega

/-- In a sum, the coefficient of the unknown is zero, and such a term is not kept. -/
theorem ordered (follows : Follows atom facts fact) (ordered : ∀ fact ∈ facts, fact.Ordered) :
    fact.Ordered ∧ atom ∉ fact.atoms ∧ ∀ other ∈ fact.atoms, other ∈ atomsOf facts := by
  cases follows with
  | kept member absent =>
    exact ⟨ordered _ member, absent, fun other inside => mem_atomsOf.mpr ⟨_, member, inside⟩⟩
  | @combined upper lower _ above below _ _ inUpper inLower made =>
    simp only [combine?, Option.bind_eq_bind, Option.bind_eq_some_iff, Option.pure_def,
      Option.some.injEq] at made
    obtain ⟨left, scaledUpper, right, scaledLower, sum, added, rfl⟩ := made
    have fromUpper := LinearForm.atoms_scale? scaledUpper
    have fromLower := LinearForm.atoms_scale? scaledLower
    obtain ⟨inOrder, nonzero⟩ := LinearForm.ordered_add? ((ordered _ above).sublist fromUpper) added
    simp only [LinearForm.Ordered, LinearForm.atoms_tighten]
    refine ⟨inOrder, ?_, ?_⟩
    · intro member
      obtain ⟨coefficient, held⟩ := LinearForm.mem_atoms.mp member
      have total (assignment : SymbolId → Int) :
          sum.eval assignment = -lower.1 * upper.2.eval assignment + upper.1 *
            lower.2.eval assignment := by
        rw [LinearForm.eval_add? _ added, LinearForm.eval_scale? _ scaledUpper,
          LinearForm.eval_scale? _ scaledLower]
      have atOne := total fun other => if other = atom then 1 else 0
      have atZero := total fun _ => 0
      rw [LinearForm.eval_one inOrder held, LinearForm.eval_one (ordered _ above) inUpper,
        LinearForm.eval_one (ordered _ below) inLower] at atOne
      rw [LinearForm.eval_zero, LinearForm.eval_zero, LinearForm.eval_zero] at atZero
      apply nonzero _ held
      show coefficient = 0
      linarith
    · intro other member
      rcases LinearForm.mem_atoms_of_add? added member with left | right
      · exact mem_atomsOf.mpr ⟨_, above, fromUpper.subset left⟩
      · exact mem_atomsOf.mpr ⟨_, below, fromLower.subset right⟩

end Follows

end Constraints

end Covenant
