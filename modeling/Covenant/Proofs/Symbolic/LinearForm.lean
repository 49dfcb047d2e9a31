import Covenant.Proofs.Lists
import Covenant.Symbolic.Constraints
import Mathlib.Tactic.Ring

/-!
Arithmetic on linear expressions. Where an operation has a result, that is for all values of the
unknowns what the operation makes of the operands. The unknowns of a result stay in order, and one
whose coefficient becomes zero is gone from a sum.
-/

namespace Covenant

theorem coefficient?_eq_some {value held : Int} :
    coefficient? value = some held ↔ held = value ∧ -coefficientBound ≤ value ∧
      value < coefficientBound := by
  unfold coefficient?
  split
  · rename_i fits
    simp only [Bool.and_eq_true, decide_eq_true_eq] at fits
    simp [fits, eq_comm]
  · rename_i large
    simp only [Bool.and_eq_true, decide_eq_true_eq] at large
    simp [large]

theorem eq_of_coefficient? {value held : Int} (found : coefficient? value = some held) :
    held = value :=
  (coefficient?_eq_some.mp found).1

/-! Unknowns in order. -/

namespace Constraints

variable {atom : SymbolId}

theorem mem_insertAtom {other : SymbolId} {known : List SymbolId} :
    other ∈ insertAtom atom known ↔ other = atom ∨ other ∈ known := by
  induction known with
  | nil => simp [insertAtom]
  | cons first rest ih =>
    simp only [insertAtom]
    split
    · exact List.mem_cons
    · split
      · rename_i same
        simp [same]
      · rw [List.mem_cons, ih, List.mem_cons]
        exact or_left_comm

theorem ordered_insertAtom {known : List SymbolId} (ordered : known.Pairwise (· < ·)) :
    (insertAtom atom known).Pairwise (· < ·) := by
  induction known with
  | nil => simp [insertAtom]
  | cons first rest ih =>
    obtain ⟨least, behind⟩ := List.pairwise_cons.mp ordered
    simp only [insertAtom]
    split
    · rename_i before
      refine List.pairwise_cons.mpr ⟨?_, ordered⟩
      intro other member
      rcases List.mem_cons.mp member with rfl | later
      · exact before
      · exact Nat.lt_trans before (least other later)
    · rename_i notBefore
      split
      · exact ordered
      · rename_i different
        refine List.pairwise_cons.mpr ⟨?_, ih behind⟩
        intro other member
        rcases mem_insertAtom.mp member with rfl | inside
        · exact Nat.lt_of_le_of_ne (Nat.le_of_not_lt notBefore) (Ne.symm different)
        · exact least other inside

theorem mem_insertAtoms {other : SymbolId} {atoms known : List SymbolId} :
    other ∈ atoms.foldl (fun known atom => insertAtom atom known) known ↔ other ∈ atoms ∨
      other ∈ known := by
  induction atoms generalizing known with
  | nil => simp
  | cons first rest ih =>
    rw [List.foldl_cons, ih, mem_insertAtom, List.mem_cons]
    exact or_left_comm.trans or_assoc.symm

theorem ordered_insertAtoms {atoms known : List SymbolId} (ordered : known.Pairwise (· < ·)) :
    (atoms.foldl (fun known atom => insertAtom atom known) known).Pairwise (· < ·) := by
  induction atoms generalizing known with
  | nil => exact ordered
  | cons first rest ih => exact ih (ordered_insertAtom ordered)

end Constraints

namespace LinearForm

section Values

variable (assignment : SymbolId → Int)

theorem eval_ofConstant (constant : Int) : (ofConstant constant).eval assignment = constant := by
  simp [ofConstant, eval, evalTerms]

theorem eval_ofAtom (atom : SymbolId) : (ofAtom atom).eval assignment = assignment atom := by
  simp [ofAtom, eval, evalTerms]

theorem eval_asConstant? {form : LinearForm} {value : Int}
    (constant : form.asConstant? = some value) :
    form.eval assignment = value := by
  unfold asConstant? at constant
  split at constant
  · rename_i empty
    obtain rfl := Option.some.inj constant
    simp [eval, evalTerms, List.isEmpty_iff.mp empty]
  · simp at constant

theorem evalTerms_filter (terms : List (SymbolId × Int)) :
    evalTerms assignment (terms.filter fun term => term.2 != 0) = evalTerms assignment terms := by
  induction terms with
  | nil => rfl
  | cons term rest ih =>
    obtain ⟨atom, coefficient⟩ := term
    by_cases zero : coefficient = 0
    · simp [evalTerms, zero, ih]
    · simp [evalTerms, zero, ih]

theorem evalTerms_addTerm {atom : SymbolId} {coefficient : Int}
    {terms added : List (SymbolId × Int)} (sum : addTerm atom coefficient terms = some added) :
    evalTerms assignment added = coefficient * assignment atom + evalTerms assignment terms := by
  induction terms generalizing added with
  | nil =>
    obtain rfl := Option.some.inj sum
    rfl
  | cons term rest ih =>
    obtain ⟨first, held⟩ := term
    simp only [addTerm] at sum
    split at sum
    · obtain rfl := Option.some.inj sum
      rfl
    · split at sum
      · rename_i same
        obtain ⟨total, fits, rfl⟩ := Option.map_eq_some_iff.mp sum
        simp only [evalTerms, eq_of_coefficient? fits, same]
        ring
      · obtain ⟨tail, later, rfl⟩ := Option.map_eq_some_iff.mp sum
        simp only [evalTerms, ih later]
        ring

theorem evalTerms_foldlM_addTerm {terms start added : List (SymbolId × Int)}
    (sum : terms.foldlM (fun sum term => addTerm term.1 term.2 sum) start = some added) :
    evalTerms assignment added = evalTerms assignment start + evalTerms assignment terms := by
  induction terms generalizing start with
  | nil =>
    obtain rfl : start = added := by simpa using sum
    simp [evalTerms]
  | cons term rest ih =>
    simp only [List.foldlM_cons, Option.bind_eq_bind, Option.bind_eq_some_iff] at sum
    obtain ⟨middle, first, later⟩ := sum
    rw [ih later, evalTerms_addTerm assignment first]
    simp only [evalTerms]
    ring

theorem eval_add? {left right sum : LinearForm} (added : left.add? right = some sum) :
    sum.eval assignment = left.eval assignment + right.eval assignment := by
  simp only [add?, Option.bind_eq_bind, Option.bind_eq_some_iff, Option.pure_def,
    Option.some.injEq] at added
  obtain ⟨terms, summed, constant, fits, rfl⟩ := added
  simp only [eval, evalTerms_filter, evalTerms_foldlM_addTerm assignment summed,
    eq_of_coefficient? fits]
  ring

theorem evalTerms_mapM_scale {factor : Int} {terms scaled : List (SymbolId × Int)}
    (product : terms.mapM
      (fun term => (coefficient? (term.2 * factor)).map fun product => (term.1, product)) =
      some scaled) :
    evalTerms assignment scaled = factor * evalTerms assignment terms := by
  induction terms generalizing scaled with
  | nil =>
    obtain rfl : [] = scaled := by simpa using product
    simp [evalTerms]
  | cons term rest ih =>
    simp only [List.mapM_cons, Option.bind_eq_bind, Option.bind_eq_some_iff, Option.pure_def,
      Option.some.injEq] at product
    obtain ⟨head, first, tail, later, rfl⟩ := product
    obtain ⟨value, fits, rfl⟩ := Option.map_eq_some_iff.mp first
    simp only [evalTerms, ih later, eq_of_coefficient? fits]
    ring

theorem eval_scale? {form scaled : LinearForm} {factor : Int}
    (product : form.scale? factor = some scaled) :
    scaled.eval assignment = factor * form.eval assignment := by
  unfold scale? at product
  split at product
  · rename_i zero
    obtain rfl := Option.some.inj product
    rw [eval_ofConstant, zero, Int.zero_mul]
  · simp only [Option.bind_eq_bind, Option.bind_eq_some_iff, Option.pure_def,
      Option.some.injEq] at product
    obtain ⟨terms, multiplied, constant, fits, rfl⟩ := product
    simp only [eval, evalTerms_mapM_scale assignment multiplied, eq_of_coefficient? fits]
    ring

theorem eval_sub? {left right difference : LinearForm}
    (subtracted : left.sub? right = some difference) :
    difference.eval assignment = left.eval assignment - right.eval assignment := by
  simp only [sub?, Option.bind_eq_bind, Option.bind_eq_some_iff] at subtracted
  obtain ⟨negated, scaled, added⟩ := subtracted
  rw [eval_add? assignment added, eval_scale? assignment scaled]
  ring

theorem eval_offset? {form moved : LinearForm} {offset : Int}
    (shifted : form.offset? offset = some moved) :
    moved.eval assignment = form.eval assignment + offset := by
  unfold offset? at shifted
  obtain ⟨constant, fits, rfl⟩ := Option.map_eq_some_iff.mp shifted
  simp only [eval, eq_of_coefficient? fits]
  ring

/-! Tightening. -/

theorem foldl_gcd_dvd (terms : List (SymbolId × Int)) (start : Nat) :
    terms.foldl (fun divisor term => Nat.gcd divisor term.2.natAbs) start ∣ start ∧
      ∀ term ∈ terms,
        ((terms.foldl (fun (divisor : Nat) term => Nat.gcd divisor term.2.natAbs) start : Nat) :
          Int) ∣ term.2 := by
  induction terms generalizing start with
  | nil => simp
  | cons term rest ih =>
    obtain ⟨below, others⟩ := ih (Nat.gcd start term.2.natAbs)
    refine ⟨Nat.dvd_trans below (Nat.gcd_dvd_left _ _), ?_⟩
    intro other member
    rcases List.mem_cons.mp member with rfl | later
    · exact Int.natCast_dvd.mpr (Nat.dvd_trans below (Nat.gcd_dvd_right _ _))
    · exact others other later

theorem evalTerms_divide {divisor : Int} {terms : List (SymbolId × Int)}
    (divides : ∀ term ∈ terms, divisor ∣ term.2) :
    divisor * evalTerms assignment (terms.map fun term => (term.1, term.2 / divisor)) =
      evalTerms assignment terms := by
  induction terms with
  | nil => simp [evalTerms]
  | cons term rest ih =>
    have later := ih fun other member => divides other (List.mem_cons_of_mem _ member)
    have whole := Int.mul_ediv_cancel' (divides term List.mem_cons_self)
    simp only [List.map_cons, evalTerms]
    calc divisor * (term.2 / divisor * assignment term.1 +
          evalTerms assignment (rest.map fun term => (term.1, term.2 / divisor)))
        = divisor * (term.2 / divisor) * assignment term.1 +
          divisor * evalTerms assignment (rest.map fun term => (term.1, term.2 / divisor)) := by
            ring
      _ = term.2 * assignment term.1 + evalTerms assignment rest := by rw [whole, later]

theorem eval_tighten {form : LinearForm} (holds : 0 ≤ form.eval assignment) :
    0 ≤ form.tighten.eval assignment := by
  unfold tighten
  simp only
  split
  · rename_i large
    simp only [Bool.and_eq_true, decide_eq_true_eq] at large
    have positive : (0 : Int) < form.content := by omega
    have divides : ∀ term ∈ form.terms, (form.content : Int) ∣ term.2 :=
      (foldl_gcd_dvd form.terms 0).2
    have whole := evalTerms_divide assignment divides
    simp only [eval] at holds ⊢
    rw [← whole, Int.add_comm] at holds
    have shifted := Int.ediv_nonneg holds (Int.le_of_lt positive)
    rw [Int.add_mul_ediv_left _ _ (Int.ne_of_gt positive)] at shifted
    rw [Int.add_comm]
    exact shifted
  · exact holds

end Values

/-! The unknowns of a result. -/

def Ordered (form : LinearForm) : Prop := form.atoms.Pairwise (· < ·)

theorem mem_atoms {form : LinearForm} {atom : SymbolId} :
    atom ∈ form.atoms ↔ ∃ coefficient, (atom, coefficient) ∈ form.terms := by
  simp [atoms]

theorem atoms_addTerm {atom : SymbolId} {coefficient : Int} {terms added : List (SymbolId × Int)}
    (sum : addTerm atom coefficient terms = some added) :
    added.map Prod.fst = Constraints.insertAtom atom (terms.map Prod.fst) := by
  induction terms generalizing added with
  | nil =>
    obtain rfl := Option.some.inj sum
    rfl
  | cons term rest ih =>
    obtain ⟨first, held⟩ := term
    simp only [addTerm] at sum
    simp only [List.map_cons, Constraints.insertAtom]
    split at sum
    · rename_i before
      obtain rfl := Option.some.inj sum
      rw [if_pos before, List.map_cons, List.map_cons]
    · rename_i notBefore
      rw [if_neg notBefore]
      split at sum
      · rename_i same
        obtain ⟨total, _, rfl⟩ := Option.map_eq_some_iff.mp sum
        rw [if_pos same, List.map_cons]
      · rename_i different
        obtain ⟨tail, later, rfl⟩ := Option.map_eq_some_iff.mp sum
        rw [if_neg different, List.map_cons, ih later]

theorem atoms_foldlM_addTerm {terms start added : List (SymbolId × Int)}
    (sum : terms.foldlM (fun sum term => addTerm term.1 term.2 sum) start = some added) :
    added.map Prod.fst =
      (terms.map Prod.fst).foldl (fun known atom => Constraints.insertAtom atom known)
      (start.map Prod.fst) := by
  induction terms generalizing start with
  | nil =>
    obtain rfl : start = added := by simpa using sum
    rfl
  | cons term rest ih =>
    simp only [List.foldlM_cons, Option.bind_eq_bind, Option.bind_eq_some_iff] at sum
    obtain ⟨middle, first, later⟩ := sum
    rw [ih later, atoms_addTerm first, List.map_cons, List.foldl_cons]

theorem mem_atoms_of_add? {left right sum : LinearForm} (added : left.add? right = some sum)
    {atom : SymbolId} (member : atom ∈ sum.atoms) : atom ∈ left.atoms ∨ atom ∈ right.atoms := by
  simp only [add?, Option.bind_eq_bind, Option.bind_eq_some_iff, Option.pure_def,
    Option.some.injEq] at added
  obtain ⟨terms, summed, constant, _, rfl⟩ := added
  have inside := (List.filter_sublist.map Prod.fst).subset member
  rw [atoms_foldlM_addTerm summed] at inside
  exact (Constraints.mem_insertAtoms.mp inside).symm

theorem ordered_add? {left right sum : LinearForm} (ordered : left.Ordered)
    (added : left.add? right = some sum) :
    sum.Ordered ∧ ∀ term ∈ sum.terms, term.2 ≠ 0 := by
  simp only [add?, Option.bind_eq_bind, Option.bind_eq_some_iff, Option.pure_def,
    Option.some.injEq] at added
  obtain ⟨terms, summed, constant, _, rfl⟩ := added
  have inOrder : (terms.map Prod.fst).Pairwise (· < ·) := by
    rw [atoms_foldlM_addTerm summed]
    exact Constraints.ordered_insertAtoms ordered
  refine ⟨inOrder.sublist (List.filter_sublist.map Prod.fst), ?_⟩
  intro term member
  simpa using (List.mem_filter.mp member).2

theorem atoms_mapM_scale {factor : Int} {terms scaled : List (SymbolId × Int)}
    (product : terms.mapM
      (fun term => (coefficient? (term.2 * factor)).map fun product => (term.1, product)) =
      some scaled) :
    scaled.map Prod.fst = terms.map Prod.fst := by
  induction terms generalizing scaled with
  | nil =>
    obtain rfl : [] = scaled := by simpa using product
    rfl
  | cons term rest ih =>
    simp only [List.mapM_cons, Option.bind_eq_bind, Option.bind_eq_some_iff, Option.pure_def,
      Option.some.injEq] at product
    obtain ⟨head, first, tail, later, rfl⟩ := product
    obtain ⟨value, _, rfl⟩ := Option.map_eq_some_iff.mp first
    rw [List.map_cons, List.map_cons, ih later]

theorem atoms_scale? {form scaled : LinearForm} {factor : Int}
    (product : form.scale? factor = some scaled) :
    scaled.atoms.Sublist form.atoms := by
  unfold scale? at product
  split at product
  · obtain rfl := Option.some.inj product
    exact List.nil_sublist _
  · simp only [Option.bind_eq_bind, Option.bind_eq_some_iff, Option.pure_def,
      Option.some.injEq] at product
    obtain ⟨terms, multiplied, constant, _, rfl⟩ := product
    change (terms.map Prod.fst).Sublist (form.terms.map Prod.fst)
    rw [atoms_mapM_scale multiplied]

theorem mem_atoms_of_sub? {left right difference : LinearForm}
    (subtracted : left.sub? right = some difference) {atom : SymbolId}
    (member : atom ∈ difference.atoms) : atom ∈ left.atoms ∨ atom ∈ right.atoms := by
  simp only [sub?, Option.bind_eq_bind, Option.bind_eq_some_iff] at subtracted
  obtain ⟨negated, scaled, added⟩ := subtracted
  exact (mem_atoms_of_add? added member).imp id fun inside => (atoms_scale? scaled).subset inside

theorem atoms_offset? {form moved : LinearForm} {offset : Int}
    (shifted : form.offset? offset = some moved) :
    moved.atoms = form.atoms := by
  unfold offset? at shifted
  obtain ⟨constant, _, rfl⟩ := Option.map_eq_some_iff.mp shifted
  rfl

@[simp] theorem atoms_tighten (form : LinearForm) : form.tighten.atoms = form.atoms := by
  unfold tighten
  simp only
  split
  · simp [atoms]
  · rfl

/-! A coefficient is by how much the expression grows when its unknown goes from zero to one. -/

theorem eval_zero (form : LinearForm) : (form.eval fun _ => 0) = form.constant := by
  have none (terms : List (SymbolId × Int)) : evalTerms (fun _ => 0) terms = 0 := by
    induction terms with
    | nil => rfl
    | cons term rest ih => simp [evalTerms, ih]
  rw [eval, none, Int.zero_add]

theorem evalTerms_one {atom : SymbolId} {terms : List (SymbolId × Int)}
    (absent : atom ∉ terms.map Prod.fst) :
    evalTerms (fun other => if other = atom then 1 else 0) terms = 0 := by
  induction terms with
  | nil => rfl
  | cons term rest ih =>
    rw [List.map_cons, List.mem_cons, not_or] at absent
    simp only [evalTerms, ih absent.2, if_neg (Ne.symm absent.1), Int.mul_zero, Int.add_zero]

theorem eval_one {form : LinearForm} (ordered : form.Ordered) {atom : SymbolId} {coefficient : Int}
    (member : (atom, coefficient) ∈ form.terms) :
    (form.eval fun other => if other = atom then 1 else 0) = coefficient + form.constant := by
  obtain ⟨terms, constant⟩ := form
  suffices evalTerms (fun other => if other = atom then 1 else 0) terms = coefficient by
    rw [eval, this]
  change (terms.map Prod.fst).Pairwise (· < ·) at ordered
  change (atom, coefficient) ∈ terms at member
  induction terms with
  | nil => simp at member
  | cons term rest ih =>
    obtain ⟨least, behind⟩ := List.pairwise_cons.mp ordered
    rcases List.mem_cons.mp member with rfl | later
    · have absent : atom ∉ rest.map Prod.fst := fun inside => Nat.lt_irrefl _ (least atom inside)
      simp only [evalTerms, evalTerms_one absent, if_pos, Int.mul_one, Int.add_zero]
    · have other : term.1 ≠ atom := Nat.ne_of_lt (least atom (List.mem_map_of_mem later))
      simp only [evalTerms, if_neg other, Int.mul_zero, Int.zero_add]
      exact ih behind later

end LinearForm

end Covenant
