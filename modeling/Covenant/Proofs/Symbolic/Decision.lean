import Covenant.Proofs.Symbolic.Elimination
import Mathlib

/-!
The elimination decides soundly: facts that some natural numbers make true are never found to
contradict each other, and what is found to follow from facts is true wherever they are. It ends,
since each round takes an unknown away, and it ends without an answer only where a round has to
negate the least coefficient.
-/

namespace Covenant

namespace Constraints

variable {assignment : SymbolId → Nat} {facts : List LinearForm} {fact : LinearForm}

theorem mem_of_dropRepeated (member : fact ∈ arrange.dropRepeated facts) : fact ∈ facts := by
  induction facts with
  | nil => simp [arrange.dropRepeated] at member
  | cons first rest ih =>
    simp only [arrange.dropRepeated] at member
    split at member
    · exact List.mem_cons_of_mem _ (ih member)
    · rcases List.mem_cons.mp member with rfl | later
      · exact List.mem_cons_self
      · exact List.mem_cons_of_mem _ (ih later)

theorem mem_of_arrange (member : fact ∈ arrange facts) : fact ∈ facts :=
  List.mem_mergeSort.mp (mem_of_dropRepeated member)

def Round.Describes (facts : List LinearForm) : Round → Prop
  | .answer true => True
  | .answer false => ∃ fact ∈ facts, fact.terms = [] ∧ fact.constant < 0
  | .overflow => ∃ fact ∈ facts, ∃ term ∈ fact.terms, term.2 = -coefficientBound
  | .next others => ∃ atom ∈ atomsOf facts, ∀ fact ∈ others, Follows atom facts fact

theorem describes_round (facts : List LinearForm) : (round facts).Describes facts := by
  unfold round
  split
  · rename_i contradictory
    obtain ⟨fact, member, negative⟩ := List.any_eq_true.mp contradictory
    simp only [Bool.and_eq_true, List.isEmpty_iff, decide_eq_true_eq] at negative
    exact ⟨fact, member, negative⟩
  · have part : ∀ fact ∈ arrange (facts.filter fun fact => !fact.terms.isEmpty), fact ∈ facts :=
      fun fact member => (List.mem_filter.mp (mem_of_arrange member)).1
    dsimp only
    split
    · trivial
    · rename_i atom cheapest
      obtain ⟨fact, inside, mentioned⟩ := mem_atomsOf.mp (mem_of_cheapest? cheapest)
      split
      · rename_i next eliminated
        refine ⟨atom, mem_atomsOf.mpr ⟨fact, part fact inside, mentioned⟩, ?_⟩
        intro sum member
        exact (follows_of_eliminate eliminated sum member).mono part
      · trivial
      · rename_i failed
        obtain ⟨least, member, found⟩ := least_of_eliminate failed
        exact ⟨least, part least member, found⟩

/-! The answer is right. -/

/-- Facts that hold are not found to contradict each other, by induction on the rounds. -/
theorem mayHold?_ne_false (fuel : Nat) (hold : ∀ fact ∈ facts, Holds assignment fact) :
    mayHold? fuel facts ≠ some false := by
  induction fuel generalizing facts with
  | zero => simp [mayHold?]
  | succ fuel ih =>
    have described := describes_round facts
    simp only [mayHold?]
    cases made : round facts with
    | answer mayHold =>
      cases mayHold with
      | true => simp
      | false =>
        rw [made] at described
        obtain ⟨fact, member, none, negative⟩ := described
        have holds := hold fact member
        simp only [Holds, LinearForm.eval, none, LinearForm.evalTerms] at holds
        omega
    | overflow => simp
    | next others =>
      rw [made] at described
      obtain ⟨atom, _, follows⟩ := described
      exact ih fun fact member => (follows fact member).holds hold

theorem feasible?_ne_false (hold : ∀ fact ∈ facts, Holds assignment fact) :
    feasible? facts ≠ some false := by
  have tightened : ∀ fact ∈ facts.map LinearForm.tighten, Holds assignment fact := by
    intro fact member
    obtain ⟨loose, inside, rfl⟩ := List.mem_map.mp member
    exact LinearForm.eval_tighten _ (hold loose inside)
  exact mayHold?_ne_false _ tightened

theorem holds_withRanges {constraints : Constraints} (satisfied : Satisfies assignment constraints)
    (hold : ∀ fact ∈ facts, Holds assignment fact) :
    ∀ fact ∈ constraints.withRanges facts, Holds assignment fact := by
  intro fact member
  rcases List.mem_append.mp member with given | ranged
  · exact hold fact given
  · obtain ⟨atom, _, inside⟩ := List.mem_flatMap.mp ranged
    have natural : Holds assignment (LinearForm.ofAtom atom) := by
      unfold Holds
      rw [LinearForm.eval_ofAtom]
      exact Int.natCast_nonneg _
    split at inside
    · rename_i largest found
      rcases List.mem_cons.mp inside with rfl | upper
      · exact natural
      · rw [List.mem_singleton.mp upper]
        have below := satisfied.2 atom largest found
        simp only [Holds, LinearForm.eval, LinearForm.evalTerms]
        omega
    · rw [List.mem_singleton.mp inside]
      exact natural

theorem isFeasible?_ne_false {constraints : Constraints}
    (satisfied : Satisfies assignment constraints) :
    constraints.isFeasible? ≠ some false :=
  feasible?_ne_false (holds_withRanges satisfied satisfied.1)

theorem holds_of_entails? {constraints : Constraints} {goal : LinearForm}
    (entailed : constraints.entails? goal = some true)
    (satisfied : Satisfies assignment constraints) :
    Holds assignment goal := by
  unfold entails? at entailed
  split at entailed
  · simp at entailed
  · rename_i negation found
    obtain ⟨negated, scaled, moved⟩ := Option.bind_eq_some_iff.mp found
    obtain ⟨mayHold, decided, refuted⟩ := Option.map_eq_some_iff.mp entailed
    obtain rfl : mayHold = false := by simpa using refuted
    by_contra fails
    refine feasible?_ne_false (holds_withRanges satisfied fun fact member => ?_) decided
    rcases List.mem_append.mp member with given | last
    · exact satisfied.1 fact given
    · rw [List.mem_singleton.mp last]
      unfold Holds at fails ⊢
      rw [LinearForm.eval_offset? _ moved, LinearForm.eval_scale? _ scaled]
      omega

/-! There is a last round. -/

/-- The rounds from given facts on come to an answer, or to none if one of them overflows. -/
inductive Settles : List LinearForm → Option Bool → Prop where
  | answer {facts : List LinearForm} {mayHold : Bool} (found : round facts = .answer mayHold) :
      Settles facts (some mayHold)
  | overflow {facts : List LinearForm} (fault : round facts = .overflow) : Settles facts none
  | next {facts others : List LinearForm} {decision : Option Bool}
      (made : round facts = .next others) (later : Settles others decision) : Settles facts decision

theorem length_atomsOf_next {others : List LinearForm} (ordered : ∀ fact ∈ facts, fact.Ordered)
    (made : round facts = .next others) :
    (∀ fact ∈ others, fact.Ordered) ∧ (atomsOf others).length < (atomsOf facts).length := by
  have described := describes_round facts
  rw [made] at described
  obtain ⟨atom, mentioned, follows⟩ := described
  refine ⟨fun fact member => ((follows fact member).ordered ordered).1, ?_⟩
  have apart : (atom :: atomsOf others).Nodup := by
    refine List.nodup_cons.mpr ⟨?_, nodup_atomsOf others⟩
    intro member
    obtain ⟨fact, inside, held⟩ := mem_atomsOf.mp member
    exact ((follows fact inside).ordered ordered).2.1 held
  have part : atom :: atomsOf others ⊆ atomsOf facts := by
    intro other member
    rcases List.mem_cons.mp member with rfl | later
    · exact mentioned
    · obtain ⟨fact, inside, held⟩ := mem_atomsOf.mp later
      exact ((follows fact inside).ordered ordered).2.2 other held
  exact (apart.subperm part).length_le

theorem settles_mayHold? {fuel : Nat} (ordered : ∀ fact ∈ facts, fact.Ordered)
    (enough : (atomsOf facts).length < fuel) : Settles facts (mayHold? fuel facts) := by
  induction fuel generalizing facts with
  | zero => omega
  | succ fuel ih =>
    simp only [mayHold?]
    cases made : round facts with
    | answer mayHold => exact .answer made
    | overflow => exact .overflow made
    | next others =>
      obtain ⟨kept, fewer⟩ := length_atomsOf_next ordered made
      exact .next made (ih kept (by omega))

theorem settles_feasible? (ordered : ∀ fact ∈ facts, fact.Ordered) :
    Settles (facts.map LinearForm.tighten) (feasible? facts) := by
  have same : atomsOf (facts.map LinearForm.tighten) = atomsOf facts := by
    rw [atomsOf_eq, atomsOf_eq, List.flatMap_map]
    simp only [LinearForm.atoms_tighten]
  apply settles_mayHold?
  · intro fact member
    obtain ⟨loose, inside, rfl⟩ := List.mem_map.mp member
    rw [LinearForm.Ordered, LinearForm.atoms_tighten]
    exact ordered loose inside
  · rw [same]
    exact Nat.lt_succ_self _

abbrev Reaches : List LinearForm → List LinearForm → Prop :=
  Relation.ReflTransGen fun facts others => round facts = .next others

theorem least_of_settles {decision : Option Bool} (settles : Settles facts decision)
    (undecided : decision = none) :
    ∃ reached, Reaches facts reached ∧ ∃ fact ∈ reached, ∃ term ∈ fact.terms,
      term.2 = -coefficientBound := by
  induction settles with
  | answer => simp at undecided
  | @overflow facts fault =>
    have described := describes_round facts
    rw [fault] at described
    exact ⟨facts, .refl, described⟩
  | next made _ ih =>
    obtain ⟨reached, later, found⟩ := ih undecided
    exact ⟨reached, .head made later, found⟩

end Constraints

/-- What the decision about facts says of the unknown natural numbers is so. For facts whose
unknowns are in order, the elimination ends, with an answer unless it has come upon the least
coefficient. Arithmetic on expressions is exact where it has a result. -/
theorem Constraints.decides_soundly (constraints : Constraints) (goal : LinearForm)
    {facts : List LinearForm} (ordered : ∀ fact ∈ facts, fact.Ordered) :
    (constraints.isFeasible? = some false → ∀ assignment, ¬ Satisfies assignment constraints) ∧
      (constraints.entails? goal = some true →
        ∀ assignment, Satisfies assignment constraints → Holds assignment goal) ∧
      Settles (facts.map LinearForm.tighten) (feasible? facts) ∧
      ((∃ mayHold, feasible? facts = some mayHold) ∨
        ∃ reached, Reaches (facts.map LinearForm.tighten) reached ∧
          ∃ fact ∈ reached, ∃ term ∈ fact.terms, term.2 = -coefficientBound) ∧
      ∀ (assignment : SymbolId → Int) (left right result : LinearForm) (number : Int),
        (left.add? right = some result → result.eval assignment = left.eval assignment +
          right.eval assignment) ∧
          (left.sub? right = some result → result.eval assignment = left.eval assignment -
            right.eval assignment) ∧
          (left.scale? number = some result → result.eval assignment = number *
            left.eval assignment) ∧
          (left.offset? number = some result → result.eval assignment = left.eval assignment +
            number) := by
  have settles := settles_feasible? ordered
  refine ⟨?_, ?_, settles, ?_, ?_⟩
  · intro refuted assignment satisfied
    exact isFeasible?_ne_false satisfied refuted
  · intro entailed assignment satisfied
    exact holds_of_entails? entailed satisfied
  · cases decided : feasible? facts with
    | some mayHold => exact .inl ⟨mayHold, rfl⟩
    | none => exact .inr (least_of_settles settles decided)
  · intro assignment left right result number
    exact ⟨LinearForm.eval_add? assignment, LinearForm.eval_sub? assignment,
      LinearForm.eval_scale? assignment, LinearForm.eval_offset? assignment⟩

/-- A number that is at least and at most a half, a bound that is the mean of two others, and
coefficients of which two halves make the least one. -/
theorem Constraints.decides_soundly_of_halves :
    let half : Constraints := ⟨[⟨[(0, 2)], -1⟩, ⟨[(0, -2)], 1⟩], []⟩
    let bounds : Constraints :=
      ⟨[⟨[(0, 1), (1, -1)], 0⟩, ⟨[(0, 1), (1, -1), (2, -2)], 0⟩], [(1, some 255)]⟩
    let mean : LinearForm := ⟨[(0, 1), (1, -1), (2, -1)], 0⟩
    let facts : List LinearForm :=
      [⟨[(0, 1), (1, -2 ^ 126)], 0⟩, ⟨[(0, -1), (1, -2 ^ 126)], 10⟩, ⟨[(1, 1)], 0⟩]
    let first : LinearForm := ⟨[(0, 3), (1, 1)], 1⟩
    let second : LinearForm := ⟨[(0, -3), (2, 1)], 1⟩
    (half.isFeasible? = some false ∧ ¬ Satisfies (fun _ => 1) half) ∧
      (bounds.entails? mean = some true ∧ Satisfies (fun atom => 9 - 4 * atom) bounds ∧
        Holds (fun atom => 9 - 4 * atom) mean) ∧
      ((∀ fact ∈ facts, fact.Ordered) ∧ feasible? facts = none ∧
        Settles (facts.map LinearForm.tighten) none ∧
        ∃ reached, Reaches (facts.map LinearForm.tighten) reached ∧
          ∃ fact ∈ reached, ∃ term ∈ fact.terms, term.2 = -coefficientBound) ∧
      first.add? second = some ⟨[(1, 1), (2, 1)], 2⟩ ∧ first.sub? second =
        some ⟨[(0, 6), (1, 1), (2, -1)], 0⟩ ∧
        first.scale? 5 = some ⟨[(0, 15), (1, 5)], 5⟩ ∧
        first.offset? 5 = some ⟨[(0, 3), (1, 1)], 6⟩ ∧
        (⟨[(1, 1), (2, 1)], 2⟩ : LinearForm).eval (fun atom => atom) =
          first.eval (fun atom => atom) + second.eval fun atom => atom := by
  intro half bounds mean facts first second
  have ordered : ∀ fact ∈ facts, fact.Ordered := by
    simp [facts, LinearForm.Ordered, LinearForm.atoms]
  obtain ⟨refutes, -, settles, answers, exact⟩ := decides_soundly half mean ordered
  obtain ⟨-, entails, -⟩ := decides_soundly bounds mean ordered
  have refuted : half.isFeasible? = some false := by cbv
  have entailed : bounds.entails? mean = some true := by cbv
  have undecided : feasible? facts = none := by cbv
  have satisfied : Satisfies (fun atom => 9 - 4 * atom) bounds := by
    refine ⟨by simp [bounds, Holds, LinearForm.eval, LinearForm.evalTerms], ?_⟩
    intro atom limit found
    have declared := mem_of_lookup found
    simp only [bounds, List.mem_singleton, Prod.mk.injEq, Option.some.injEq] at declared
    simp [declared.1, declared.2]
  have added : first.add? second = some ⟨[(1, 1), (2, 1)], 2⟩ := by decide +kernel
  refine ⟨⟨refuted, refutes refuted _⟩, ⟨entailed, satisfied, entails entailed _ satisfied⟩, ?_,
    added, by decide +kernel, by decide +kernel, by decide +kernel, (exact _ _ _ _ 0).1 added⟩
  rw [undecided] at settles answers
  exact ⟨ordered, undecided, settles, answers.resolve_left (by simp)⟩

/-- Both facts hold where the unknowns are zero, and yet they are not decided. -/
example :
    Constraints.isFeasible? ⟨[⟨[(0, 1), (1, -2 ^ 126)], 0⟩, ⟨[(0, -1), (1, -2 ^ 126)], 10⟩], []⟩ =
      none := by
  cbv

end Covenant
