import Covenant.Proofs.Lists
import Covenant.Scan.Issue

/-!
Findings are listed in a strict order, so that a list of findings is determined by what was found.
-/

namespace Covenant

instance : Std.TransCmp Location.order :=
  have := transCmp_on compare Location.line
  have := transCmp_on compare Location.column
  transCmp_then _ _

instance : Std.LawfulEqCmp Location.order where
  compare_self := by simp [Location.order]
  eq_of_compare := by
    intro left right same
    rw [Location.order, Ordering.then_eq_eq] at same
    cases left
    cases right
    simpa using same

theorem Severity.eq_of_rank {left right : Severity} (same : left.rank = right.rank) :
    left = right := by
  cases left <;> cases right <;> simp [rank] at same <;> rfl

namespace Issue

section

variable {α : Type} {order : α → α → Ordering}

instance [Std.OrientedCmp order] : Std.OrientedCmp (orderOption order) where
  eq_swap := by
    intro left right
    cases left with
    | none => cases right <;> rfl
    | some left =>
      cases right with
      | none => rfl
      | some right => exact (Std.OrientedCmp.eq_swap : order left right = (order right left).swap)

instance [Std.TransCmp order] : Std.TransCmp (orderOption order) where
  isLE_trans := by
    intro first second third before after
    cases first <;> cases second <;> cases third <;> simp [orderOption] at before after ⊢
    exact Std.TransCmp.isLE_trans before after

instance [Std.LawfulEqCmp order] : Std.LawfulEqCmp (orderOption order) where
  compare_self := by
    intro value
    cases value <;> simp [orderOption]
  eq_of_compare := by
    intro left right same
    cases left <;> cases right <;> simp [orderOption] at same ⊢
    exact same

end

instance : Std.TransCmp order :=
  have byLocation := transCmp_on (orderOption Location.order) location
  have byId := transCmp_on compare id
  have bySeverity := transCmp_on compare fun issue : Issue => issue.severity.rank
  have byFunction := transCmp_on (orderOption compare) function
  have byMessage := transCmp_on compare message
  have byTarget := @transCmp_then _ _ _ byFunction byMessage
  have byWeight := @transCmp_then _ _ _ bySeverity byTarget
  have byCheck := @transCmp_then _ _ _ byId byWeight
  @transCmp_then _ _ _ byLocation byCheck

instance : Std.LawfulEqCmp order where
  compare_self := by simp [order]
  eq_of_compare := by
    intro left right same
    simp only [order, Ordering.then_eq_eq, Std.LawfulEqCmp.compare_eq_iff_eq] at same
    obtain ⟨location, id, rank, function, message⟩ := same
    have severity := Severity.eq_of_rank rank
    cases left
    cases right
    simp_all

theorem mem_dropRepeated {issue : Issue} {issues : List Issue} :
    issue ∈ dropRepeated issues ↔ issue ∈ issues := by
  fun_induction dropRepeated issues with
  | case1 first second rest same ih =>
    obtain rfl := eq_of_beq same
    rw [ih]
    simp
  | case2 first second rest different ih => rw [List.mem_cons, ih, ← List.mem_cons]
  | case3 issues => rfl

theorem mem_arrange {issue : Issue} {issues : List Issue} :
    issue ∈ arrange issues ↔ issue ∈ issues := by
  rw [arrange, mem_dropRepeated, List.mem_mergeSort]

theorem ascending_dropRepeated {issues : List Issue}
    (sorted : issues.Pairwise fun first second => (order first second).isLE = true) :
    Ascending order (dropRepeated issues) := by
  fun_induction dropRepeated issues with
  | case1 first second rest same ih => exact ih sorted.tail
  | case2 first second rest different ih =>
    refine List.pairwise_cons.mpr ⟨?_, ih sorted.tail⟩
    intro issue member
    have before := (List.pairwise_cons.mp sorted).1 second List.mem_cons_self
    have unequal : order first second ≠ .eq := by
      intro same
      exact different (beq_iff_eq.mpr (Std.LawfulEqCmp.eq_of_compare same))
    have strict : order first second = .lt := by
      cases compared : order first second with
      | lt => rfl
      | eq => exact absurd compared unequal
      | gt => simp [compared] at before
    rw [mem_dropRepeated] at member
    rcases List.mem_cons.mp member with rfl | later
    · exact strict
    · have behind := (List.pairwise_cons.mp sorted.tail).1 issue later
      exact Std.TransCmp.lt_of_lt_of_isLE strict behind
  | case3 issues short =>
    match issues, short with
    | [], _ => exact .nil
    | [issue], _ => exact List.pairwise_singleton _ _
    | first :: second :: rest, short => exact absurd rfl (short first second rest)

theorem ascending_arrange (issues : List Issue) : Ascending order (arrange issues) :=
  ascending_dropRepeated (sorted_mergeSort issues)

end Issue

end Covenant
