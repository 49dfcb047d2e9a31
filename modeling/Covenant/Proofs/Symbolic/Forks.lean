import Covenant.Proofs.Symbolic.Matching

/-!
Operators on a path. Where arithmetic may wrap around, one of the paths that it leads to is that of
the run: the facts that tell them apart are exact, and only one of them is true. A fact with a
number that is too large for a coefficient cannot be stated, and then the path that it belongs to is
left out.
-/

namespace Covenant

namespace Explorer

def staysLow (state : PathState) (form : LinearForm) : Bool :=
  ((form.scale? (-1)).bind fun negated => negated.offset? (coefficientBound - 1)).any fun room =>
    state.constraints.entails? room == some true

/-- Whether the search can state both that a sum, a difference or a product fits its type and that
it wraps around, or knows that it does not. A product of two unknowns is an unknown itself, of which
nothing has to be stated. -/
def tellsApart (arena : Arena) (state : PathState) (op : BinaryOp) (ty : Ty) (whole : SymbolId) :
    Bool :=
  match state.linear? arena whole with
  | none => true
  | some (form, state) => form == LinearForm.ofAtom whole ||
    match wrapFacts? op ty form with
    | some facts => facts.1.isSome && facts.2.isSome
    | none => staysLow state form

def asks (arena : Arena) (left right whole : SymbolId) : Bool :=
  match arena.const? left, arena.const? right with
  | some first, some second => second ≤ first
  | _, _ => (arena.linear? whole).isSome

def attendsOperator (mindful : Bool) (arena : Arena) (path : Path) (op : BinaryOp) (ty : Ty)
    (lhs rhs : ValueId) :
    Bool :=
  match path.frame.get? lhs, path.frame.get? rhs with
  | .ok left, .ok right =>
    let (whole, arena) := arena.intern (.binary op left right) ty
    !Arena.isLinear op ||
      tellsApart arena path.state op ty whole &&
      (!(mindful && op == .sub) || asks arena left right whole)
  | _, _ => true

end Explorer

variable {course : Course} {arena later : Arena} {numbers : SymbolId → Nat} {mindful : Bool}
  {path : Path} {effects : Effects} {op : BinaryOp} {ty : Ty} {left right whole : SymbolId}

namespace Explorer

/-! The facts that tell apart whether arithmetic wraps around. -/

theorem wrapFacts?_sub (ty : Ty) (form : LinearForm) :
    wrapFacts? .sub ty form =
      some (some form, (form.scale? (-1)).bind fun negated => negated.offset? (-1)) := rfl

theorem wrapFacts?_eq_some {form : LinearForm} {fits wraps : Option LinearForm} (other : op ≠ .sub)
    (found : wrapFacts? op ty form = some (fits, wraps)) :
    ∃ largest, coefficient? ty.maxValue = some largest ∧
      fits = (form.scale? (-1)).bind (fun negated => negated.offset? largest) ∧
      wraps = (form.offset? (-largest)).bind fun above => above.offset? (-1) := by
  have apart : (op == .sub) = false := beq_eq_false_iff_ne.mpr other
  simp only [wrapFacts?, apart, Bool.false_eq_true, if_false, Option.map_eq_some_iff,
    Prod.mk.injEq] at found
  obtain ⟨largest, known, fit, wrap⟩ := found
  exact ⟨largest, known, fit.symm, wrap.symm⟩

theorem exact_nonneg (linear : Arena.isLinear op = true) (other : op ≠ .sub) (first second : Nat) :
    0 ≤ op.exact first second := by
  cases op <;> simp [Arena.isLinear] at linear other
  · exact Int.add_nonneg (Int.natCast_nonneg _) (Int.natCast_nonneg _)
  · exact Int.mul_nonneg (Int.natCast_nonneg _) (Int.natCast_nonneg _)

theorem fits_ofAtom (id : SymbolId) {largest : Int}
    (known : coefficient? ty.maxValue = some largest) :
    ((LinearForm.ofAtom id).scale? (-1)).bind (fun negated => negated.offset? largest) ≠ none := by
  have negated : (LinearForm.ofAtom id).scale? (-1) = some ⟨[(id, -1)], 0⟩ := by
    simp [LinearForm.scale?, LinearForm.ofAtom, coefficient?, coefficientBound]
  have fits : coefficient? largest = some largest := by
    have same := eq_of_coefficient? known
    rw [← same] at known
    exact known
  simp [negated, LinearForm.offset?, fits]

theorem holds_fits {form : LinearForm} {fits wraps : Option LinearForm}
    (found : wrapFacts? op ty form = some (fits, wraps)) {value : Int}
    (eval : form.eval (fun atom => (numbers atom : Int)) = value) (low : 0 ≤ value)
    (high : value < ty.bound) {fact : LinearForm} (stated : fits = some fact) :
    Constraints.Holds numbers fact := by
  unfold Constraints.Holds
  by_cases difference : op = .sub
  · subst difference
    rw [wrapFacts?_sub] at found
    obtain ⟨rfl, _⟩ := Prod.mk.inj (Option.some.inj found)
    obtain rfl := Option.some.inj stated
    rw [eval]
    exact low
  · obtain ⟨largest, known, same, _⟩ := wrapFacts?_eq_some difference found
    rw [same] at stated
    obtain ⟨negated, scaled, moved⟩ := Option.bind_eq_some_iff.mp stated
    rw [LinearForm.eval_offset? _ moved, LinearForm.eval_scale? _ scaled, eval,
      eq_of_coefficient? known]
    have positive := ty.bound_pos
    unfold Ty.maxValue
    omega

theorem holds_wraps {form : LinearForm} {fits wraps : Option LinearForm}
    (found : wrapFacts? op ty form = some (fits, wraps)) {first second : Nat}
    (linear : Arena.isLinear op = true) (small : first < ty.bound)
    (eval : form.eval (fun atom => (numbers atom : Int)) = op.exact first second)
    (outside : ¬ op.Fits ty first second) {fact : LinearForm} (stated : wraps = some fact) :
    Constraints.Holds numbers fact := by
  unfold Constraints.Holds
  unfold BinaryOp.Fits at outside
  by_cases difference : op = .sub
  · subst difference
    rw [wrapFacts?_sub] at found
    obtain ⟨_, rfl⟩ := Prod.mk.inj (Option.some.inj found)
    obtain ⟨negated, scaled, moved⟩ := Option.bind_eq_some_iff.mp stated
    rw [LinearForm.eval_offset? _ moved, LinearForm.eval_scale? _ scaled, eval]
    simp only [BinaryOp.exact] at outside ⊢
    omega
  · obtain ⟨largest, known, _, same⟩ := wrapFacts?_eq_some difference found
    rw [same] at stated
    obtain ⟨above, scaled, moved⟩ := Option.bind_eq_some_iff.mp stated
    rw [LinearForm.eval_offset? _ moved, LinearForm.eval_offset? _ scaled, eval,
      eq_of_coefficient? known]
    have positive := ty.bound_pos
    have low := exact_nonneg linear difference first second
    unfold Ty.maxValue
    omega

/-- Where that something fits its type cannot be stated, it still does if the facts of the path
leave it no more than the largest coefficient. -/
theorem fits_of_staysLow {state : PathState} {form : LinearForm} {first second : Nat}
    (linear : Arena.isLinear op = true) (unstated : wrapFacts? op ty form = none)
    (low : staysLow state form = true)
    (satisfied : Constraints.Satisfies numbers state.constraints)
    (eval : form.eval (fun atom => (numbers atom : Int)) = op.exact first second) :
    op.Fits ty first second := by
  obtain ⟨room, there, entailed⟩ := (Option.any_eq_true _ _).mp low
  obtain ⟨negated, scaled, moved⟩ := Option.bind_eq_some_iff.mp there
  have holds := Constraints.holds_of_entails? (eq_of_beq entailed) satisfied
  rw [Constraints.Holds, LinearForm.eval_offset? _ moved, LinearForm.eval_scale? _ scaled,
    eval] at holds
  have other : op ≠ .sub := by
    rintro rfl
    simp [wrapFacts?_sub] at unstated
  have large : coefficientBound ≤ ty.maxValue := by
    simp only [wrapFacts?, beq_eq_false_iff_ne.mpr other, Bool.false_eq_true, if_false,
      Option.map_eq_none_iff] at unstated
    unfold coefficient? at unstated
    have positive : -coefficientBound ≤ 0 := by decide
    by_contra small
    simp at unstated
    omega
  have positive := ty.bound_pos
  unfold BinaryOp.Fits
  unfold Ty.maxValue at large
  exact ⟨exact_nonneg linear other first second, by omega⟩

theorem defineUnder?_of_holds (path : Path)
    (matched : path.state.Matches course arena numbers mindful effects) {fact : LinearForm}
    (holds : Constraints.Holds numbers fact) {dest : ValueId} {value : SymbolId}
    {made : Option Continuation} (defined : defineUnder? path dest value (some fact) = .ok made) :
    ∃ state, made = some (.pending (Path.define { path with state } dest value)) ∧
      state.Matches course arena numbers mindful effects := by
  have plain : RangedForm.Holds numbers ⟨fact, []⟩ := ⟨holds, fun atom member => by simp at member⟩
  obtain ⟨⟨state, mayHold⟩, assumed, same⟩ := chain_eq_ok.mp defined
  obtain ⟨rfl, after⟩ := matched.assume plain assumed
  exact ⟨state, (Except.ok.inj same).symm, after⟩

/-! The paths that an operator leads to. -/

/-- The paths behind a sum, a difference or a product: one without a further fact, or one under each
of the facts that can be stated. -/
theorem fork_eq_ok {dest : ValueId} {continuations : List Continuation}
    (forked : fork arena path dest op ty left right whole = .ok (continuations, later)) :
    (arena.linear? whole = none ∧ continuations = [.pending (path.define dest whole)] ∧
      later = arena) ∨
      ∃ form state, path.state.linear? arena whole = some (form, state) ∧
        ((wrapFacts? op ty form = none ∧
          continuations = [.pending (Path.define { path with state } dest whole)] ∧
            later = arena) ∨
          ∃ fits wraps wrapped fitting wrapping, wrapFacts? op ty form = some (fits, wraps) ∧
            arena.intern (.wrapped op left right) ty = (wrapped, later) ∧
            defineUnder? { path with state } dest whole fits = .ok fitting ∧
            defineUnder? { path with state } dest wrapped wraps = .ok wrapping ∧
            continuations = fitting.toList ++ wrapping.toList) := by
  unfold fork at forked
  split at forked
  · rename_i unknown
    obtain ⟨rfl, rfl⟩ := Prod.mk.inj (Except.ok.inj forked)
    exact .inl ⟨by simpa [PathState.linear?] using unknown, rfl, rfl⟩
  · rename_i form state linear
    refine .inr ⟨form, state, linear, ?_⟩
    dsimp only at forked
    split at forked
    · rename_i unstated
      obtain ⟨rfl, rfl⟩ := Prod.mk.inj (Except.ok.inj forked)
      exact .inl ⟨unstated, rfl, rfl⟩
    · rename_i fits wraps stated
      generalize added : arena.intern (.wrapped op left right) ty = pair at forked
      obtain ⟨wrapped, last⟩ := pair
      obtain ⟨fitting, first, forked⟩ := chain_eq_ok.mp forked
      obtain ⟨wrapping, second, same⟩ := chain_eq_ok.mp forked
      obtain ⟨rfl, rfl⟩ := Prod.mk.inj (Except.ok.inj same)
      exact .inr ⟨fits, wraps, wrapped, fitting, wrapping, stated, rfl, first, second, rfl⟩

theorem not_below_of_asks (asked : asks arena left right whole = true)
    (respects : arena.Respects course.valuation numbers)
    (plain : arena.linear? whole = none ∨ (arena.const? left).isSome = true ∧
      (arena.const? right).isSome = true) :
    ¬ numbers left < numbers right := by
  unfold asks at asked
  split at asked
  · rename_i first second leftKnown rightKnown
    rw [Arena.value_of_const leftKnown respects, Arena.value_of_const rightKnown respects]
    have order : second ≤ first := by simpa using asked
    exact Nat.not_lt.mpr order
  · rename_i unknown
    rcases plain with none | ⟨first, second⟩
    · simp [none] at asked
    · obtain ⟨_, leftKnown⟩ := Option.isSome_iff_exists.mp first
      obtain ⟨_, rightKnown⟩ := Option.isSome_iff_exists.mp second
      exact absurd rightKnown (unknown _ _ leftKnown)

section Operators

variable {first second : Cell} {value : Nat} {middle : Arena} {dest : ValueId}
  {continuations : List Continuation}

abbrev computedCell (op : BinaryOp) (first second : Cell) (value : Nat) : Cell :=
  ⟨value, first.tainted || second.tainted || (op == .sub && first.value < second.value)⟩

theorem describes_whole (ordered : arena.Scoped) {result : Ty}
    (stored : arena.intern (.binary op left right) result = (whole, middle)) {leftTy rightTy : Ty}
    (leftDescribes : arena.Describes numbers mindful left leftTy first)
    (rightDescribes : arena.Describes numbers mindful right rightTy second)
    (means : middle.Means numbers whole result value)
    (above : mindful → op = .sub → ¬ first.value < second.value) :
    middle.Describes numbers mindful whole result (computedCell op first second value) := by
  refine ⟨means, fun mind tainted => ?_⟩
  rw [Arena.underflows_of_binary ordered stored leftDescribes.means.faithful.inside
    rightDescribes.means.faithful.inside]
  simp only [Bool.or_eq_true, Bool.and_eq_true, beq_iff_eq, decide_eq_true_eq] at tainted ⊢
  rcases tainted with (first | second) | ⟨difference, below⟩
  · exact .inl (leftDescribes.tainted mind first)
  · exact .inr (rightDescribes.tainted mind second)
  · exact absurd below (above mind difference)

theorem describes_wrapped {width : Nat} {wrapped : SymbolId} (ordered : arena.Scoped)
    (stored : arena.intern (.wrapped op left right) (.uint width) = (wrapped, later))
    (respects : later.Respects course.valuation numbers)
    (leftDescribes : arena.Describes numbers mindful left (.uint width) first)
    (rightDescribes : arena.Describes numbers mindful right (.uint width) second)
    (linear : Arena.isLinear op = true) (wraps : ¬ op.Fits (.uint width) first.value second.value)
    (computed : op.eval? (.uint width) first.value second.value = some value) :
    later.Describes numbers mindful wrapped (.uint width) (computedCell op first second value) := by
  refine ⟨Arena.means_wrapped ordered stored respects leftDescribes.means rightDescribes.means
    linear wraps computed, fun mind tainted => ?_⟩
  rw [Arena.underflows_of_wrapped ordered stored leftDescribes.means.faithful.inside
    rightDescribes.means.faithful.inside]
  simp only [Bool.or_eq_true, Bool.and_eq_true, beq_iff_eq, decide_eq_true_eq] at tainted ⊢
  rcases tainted with (first | second) | ⟨difference, _⟩
  · exact .inl (.inr (leftDescribes.tainted mind first))
  · exact .inr (rightDescribes.tainted mind second)
  · exact .inl (.inl difference)

section Forks

variable {width : Nat} (ordered : arena.Scoped)
  (stored : arena.intern (.binary op left right) (.uint width) = (whole, middle))
  (linear : Arena.isLinear op = true)
  (leftDescribes : arena.Describes numbers mindful left (.uint width) first)
  (rightDescribes : arena.Describes numbers mindful right (.uint width) second)
  (computed : op.eval? (.uint width) first.value second.value = some value)
  (respects : middle.Respects course.valuation numbers)

include ordered stored linear leftDescribes rightDescribes computed respects

theorem whole_eq : numbers whole = value ∧ value < (Ty.uint width).bound := by
  have result := Arena.resultTy_of_isLinear linear (.uint width)
  have bounded := BinaryOp.eval_lt computed
  rw [result] at bounded
  rw [← result] at stored
  rw [← leftDescribes.means.value, ← rightDescribes.means.value] at computed
  exact ⟨Arena.value_of_binary ordered stored respects leftDescribes.means.faithful
    (fun _ => leftDescribes.means.typed) computed, bounded⟩

theorem describes_unwrapped
    (fitting : ∀ ranged, middle.linear? whole = some ranged →
      ranged.form ≠ LinearForm.ofAtom whole →
      middle.const? whole = none → op.Fits (.uint width) first.value second.value)
    (above : mindful → op = .sub → ¬ first.value < second.value) :
    middle.Describes numbers mindful whole (.uint width) (computedCell op first second value) := by
  refine describes_whole ordered stored leftDescribes rightDescribes ?_ above
  have result := Arena.resultTy_of_isLinear linear (.uint width)
  rw [← result] at stored ⊢
  rw [← leftDescribes.means.value, ← rightDescribes.means.value] at computed fitting
  exact Arena.means_binary ordered stored respects leftDescribes.means.faithful
    rightDescribes.means.faithful (fun _ => leftDescribes.means.typed) computed
    (fun _ => ⟨width, rfl⟩) fun _ => fitting

theorem described_of_linear? (unknown : middle.const? whole = none) {ranged : RangedForm}
    (formed : middle.linear? whole = some ranged) :
    ∃ exact, ranged.Describes numbers exact ∧
      (op ≠ .sub ∧ ranged.form = LinearForm.ofAtom whole ∨
        exact = op.exact first.value second.value) := by
  rw [← Arena.resultTy_of_isLinear linear (.uint width)] at stored
  rw [← leftDescribes.means.value, ← rightDescribes.means.value] at computed ⊢
  exact Arena.exact_of_linear ordered stored respects leftDescribes.means.faithful
    rightDescribes.means.faithful (fun _ => leftDescribes.means.typed) computed unknown
    linear formed

variable {ranged : RangedForm} {state : PathState}

theorem covers_atom (matched : state.Matches course middle numbers mindful effects)
    (apart : op ≠ .sub) (atom : ranged.form = LinearForm.ofAtom whole)
    {fits wraps : Option LinearForm}
    (facts : wrapFacts? op (.uint width) ranged.form = some (fits, wraps))
    {made : Option Continuation}
    (defined : defineUnder? { path with state } dest whole fits = .ok made) :
    ∃ after, made = some (.pending (Path.define { path with state := after } dest whole)) ∧
      after.Matches course middle numbers mindful effects := by
  obtain ⟨told, bounded⟩ :=
    whole_eq ordered stored linear leftDescribes rightDescribes computed respects
  obtain ⟨largest, known, stated, _⟩ := wrapFacts?_eq_some apart facts
  obtain ⟨fact, same⟩ := Option.ne_none_iff_exists'.mp (fits_ofAtom whole known)
  rw [← atom, ← stated] at same
  have eval : ranged.form.eval (fun atom => (numbers atom : Int)) = value := by
    rw [atom, LinearForm.eval_ofAtom, told]
  have holds := holds_fits facts eval (Int.natCast_nonneg value) (by exact_mod_cast bounded) same
  rw [same] at defined
  exact defineUnder?_of_holds { path with state } matched holds defined

variable (formed : middle.linear? whole = some ranged) (unknown : middle.const? whole = none)
  (notAtom : ¬ (op ≠ .sub ∧ ranged.form = LinearForm.ofAtom whole))

include formed unknown notAtom

theorem eval_eq_exact :
    ranged.form.eval (fun atom => (numbers atom : Int)) = op.exact first.value second.value := by
  obtain ⟨exact, described, same⟩ :=
    described_of_linear? ordered stored linear leftDescribes rightDescribes computed respects
      unknown formed
  rw [described.eval, same.resolve_left notAtom]

variable {fits wraps : Option LinearForm}
  (facts : wrapFacts? op (.uint width) ranged.form = some (fits, wraps))
  (tells : ranged.form = LinearForm.ofAtom whole ∨ fits.isSome = true ∧ wraps.isSome = true)

include facts tells

theorem isSome_wrapFacts :
    (op.Fits (.uint width) first.value second.value → fits.isSome = true) ∧
      (¬ op.Fits (.uint width) first.value second.value → wraps.isSome = true) := by
  obtain ⟨told, bounded⟩ :=
    whole_eq ordered stored linear leftDescribes rightDescribes computed respects
  have eval :=
    eval_eq_exact ordered stored linear leftDescribes rightDescribes computed respects formed
      unknown notAtom
  rcases tells with same | ⟨fitsStated, wrapsStated⟩
  · obtain rfl : op = .sub := by_contra fun other => notAtom ⟨other, same⟩
    have fit : BinaryOp.sub.Fits (.uint width) first.value second.value := by
      unfold BinaryOp.Fits
      rw [← eval, same, LinearForm.eval_ofAtom, told]
      exact ⟨Int.natCast_nonneg value, by exact_mod_cast bounded⟩
    rw [wrapFacts?_sub] at facts
    obtain ⟨rfl, _⟩ := Prod.mk.inj (Option.some.inj facts)
    exact ⟨fun _ => rfl, fun wraps => absurd fit wraps⟩
  · exact ⟨fun _ => fitsStated, fun _ => wrapsStated⟩

/-- An operation either fits or wraps around, and there is a path for each. -/
theorem covers_exact {wrapped : SymbolId}
    (matched : state.Matches course middle numbers mindful effects) (middleOrdered : middle.Scoped)
    (added : middle.intern (.wrapped op left right) (.uint width) = (wrapped, later))
    (laterRespects : later.Respects course.valuation numbers)
    {fitting wrapping : Option Continuation}
    (fitted : defineUnder? { path with state } dest whole fits = .ok fitting)
    (overflown : defineUnder? { path with state } dest wrapped wraps = .ok wrapping) :
    ∃ id after, .pending (Path.define { path with state := after } dest id) ∈ fitting.toList ++
      wrapping.toList ∧
      later.Describes numbers mindful id (.uint width) (computedCell op first second value) ∧
      after.Matches course middle numbers mindful effects := by
  have eval :=
    eval_eq_exact ordered stored linear leftDescribes rightDescribes computed respects formed
      unknown notAtom
  obtain ⟨fitsStated, wrapsStated⟩ := isSome_wrapFacts ordered stored linear leftDescribes
    rightDescribes computed respects formed unknown notAtom facts tells
  by_cases fit : op.Fits (.uint width) first.value second.value
  · obtain ⟨fact, rfl⟩ := Option.isSome_iff_exists.mp (fitsStated fit)
    have holds := holds_fits facts eval fit.1 fit.2 rfl
    obtain ⟨after, rfl, kept⟩ := defineUnder?_of_holds { path with state } matched holds fitted
    refine ⟨whole, after, by simp, ?_, kept⟩
    have exact := describes_unwrapped ordered stored linear leftDescribes rightDescribes computed
      respects (fun _ _ _ _ => fit) (by
        rintro _ rfl
        have order := fit.1
        simp only [BinaryOp.exact] at order
        omega)
    exact exact.mono middleOrdered (Arena.extends_of_intern added)
  · obtain ⟨fact, rfl⟩ := Option.isSome_iff_exists.mp (wrapsStated fit)
    have small : first.value < (Ty.uint width).bound := by
      rw [← Ty.le_maxValue_iff, ← leftDescribes.means.typed, ← leftDescribes.means.value]
      exact leftDescribes.means.faithful.fits
    have holds := holds_wraps facts linear small eval fit rfl
    obtain ⟨after, rfl, kept⟩ := defineUnder?_of_holds { path with state } matched holds overflown
    refine ⟨wrapped, after, by simp, ?_, kept⟩
    have grown := Arena.extends_of_intern stored
    exact describes_wrapped middleOrdered added laterRespects (leftDescribes.mono ordered grown)
      (rightDescribes.mono ordered grown) linear fit computed

end Forks

/-- One of the paths behind a sum, a difference or a product is that of the run. -/
theorem covers_fork {width : Nat} (ordered : arena.Scoped)
    (stored : arena.intern (.binary op left right) (.uint width) = (whole, middle))
    (middleOrdered : middle.Scoped) (unknown : middle.const? whole = none)
    (linear : Arena.isLinear op = true)
    (leftDescribes : arena.Describes numbers mindful left (.uint width) first)
    (rightDescribes : arena.Describes numbers mindful right (.uint width) second)
    (computed : op.eval? (.uint width) first.value second.value = some value)
    (forked : fork middle path dest op (.uint width) left right whole = .ok (continuations, later))
    (grown : middle.Extends later) (laterRespects : later.Respects course.valuation numbers)
    (matched : path.state.Matches course arena numbers mindful effects)
    (tells : tellsApart middle path.state op (.uint width) whole = true)
    (asked : mindful → op = .sub → asks middle left right whole = true) :
    ∃ id state, .pending (Path.define { path with state } dest id) ∈ continuations ∧
      later.Describes numbers mindful id (.uint width) (computedCell op first second value) ∧
      state.Matches course later numbers mindful effects := by
  have respects := laterRespects.of_extends middleOrdered grown
  have middleMatched := matched.mono ordered (Arena.extends_of_intern stored)
  rcases fork_eq_ok forked with ⟨noLinear, rfl, rfl⟩ | ⟨form, state, linearForm, outcome⟩
  · -- without a linear form nothing is known of the value
    refine ⟨whole, path.state, List.mem_singleton.mpr rfl, ?_, middleMatched⟩
    refine describes_unwrapped ordered stored linear leftDescribes rightDescribes computed respects
      (fun ranged formed => ?_) fun mind difference below => ?_
    · rw [noLinear] at formed
      simp at formed
    · rw [← leftDescribes.means.value, ← rightDescribes.means.value] at below
      exact not_below_of_asks (asked mind difference) respects (.inl noLinear) below
  · obtain ⟨ranged, formed, same⟩ := Option.map_eq_some_iff.mp linearForm
    obtain ⟨rfl, _⟩ := Prod.mk.inj same
    simp only [tellsApart, linearForm, Bool.or_eq_true, beq_iff_eq] at tells
    have stateMatched : state.Matches course middle numbers mindful effects := by
      obtain ⟨exact, described, _⟩ :=
        described_of_linear? ordered stored linear leftDescribes rightDescribes computed respects
          unknown formed
      have only (other : RangedForm) (there : middle.linear? whole = some other) :
          other.Describes numbers exact := by
        rw [formed] at there
        exact Option.some.inj there ▸ described
      exact (middleMatched.linear? linearForm only).2
    by_cases atom : op ≠ .sub ∧ ranged.form = LinearForm.ofAtom whole
    · have held : middle.Describes numbers mindful whole (.uint width)
          (computedCell op first second value) := by
        refine describes_unwrapped ordered stored linear leftDescribes rightDescribes computed
          respects (fun other there notAtom => ?_) fun _ difference => absurd difference atom.1
        rw [formed] at there
        exact absurd (Option.some.inj there ▸ atom.2) notAtom
      rcases outcome with ⟨_, rfl, rfl⟩
        | ⟨fits, wraps, wrapped, fitting, wrapping, stated, added, fitted, _, rfl⟩
      · exact ⟨whole, state, List.mem_singleton.mpr rfl, held, stateMatched⟩
      · obtain ⟨after, rfl, kept⟩ := covers_atom ordered stored linear leftDescribes rightDescribes
          computed respects stateMatched atom.1 atom.2 stated fitted
        exact ⟨whole, after, by simp, held.mono middleOrdered grown, kept.mono middleOrdered grown⟩
    · rcases outcome with ⟨unstated, rfl, rfl⟩ |
        ⟨fits, wraps, wrapped, fitting, wrapping, stated, added, fitted, overflown, rfl⟩
      · -- nothing can be stated of the type, but the value stays below its bound
        have other : op ≠ .sub := by
          rintro rfl
          simp [wrapFacts?_sub] at unstated
        rw [unstated] at tells
        have eval := eval_eq_exact ordered stored linear leftDescribes rightDescribes computed
          respects formed unknown atom
        have fit := fits_of_staysLow linear unstated
          (tells.resolve_left fun same => atom ⟨other, same⟩) stateMatched.satisfied eval
        exact ⟨whole, state, List.mem_singleton.mpr rfl,
          describes_unwrapped ordered stored linear leftDescribes rightDescribes computed respects
            (fun _ _ _ _ => fit) fun _ difference => absurd difference other, stateMatched⟩
      · rw [stated] at tells
        obtain ⟨id, after, member, held, kept⟩ := covers_exact ordered stored linear leftDescribes
          rightDescribes computed respects formed unknown atom stated (by simpa using tells)
          stateMatched middleOrdered added laterRespects fitted overflown
        exact ⟨id, after, member, held, kept.mono middleOrdered grown⟩

/-- A quotient is that of the run, where the divisor is not zero. -/
theorem covers_divide {ty : Ty} (division : op = .div ∨ op = .mod)
    (rightDescribes : middle.Describes numbers mindful right ty second)
    (respects : middle.Respects course.valuation numbers)
    (computed : op.eval? ty first.value second.value = some value)
    (divided : divide middle path dest right whole = .ok continuations)
    (matched : path.state.Matches course middle numbers mindful effects) :
    ∃ state, .pending (Path.define { path with state } dest whole) ∈ continuations ∧
      state.Matches course middle numbers mindful effects := by
  have positive : second.value ≠ 0 := by
    intro zero
    rcases division with rfl | rfl <;> simp [BinaryOp.eval?, zero] at computed
  have plain (same : Except.ok [Continuation.pending (path.define dest whole)] =
      (.ok continuations : Except Halt _)) :
      ∃ state, .pending (Path.define { path with state } dest whole) ∈ continuations ∧
        state.Matches course middle numbers mindful effects := by
    obtain rfl := Except.ok.inj same
    exact ⟨path.state, List.mem_singleton.mpr rfl, matched⟩
  unfold divide at divided
  split at divided
  · rename_i known
    have zero := Arena.value_of_const known respects
    exact absurd (rightDescribes.means.value.symm.trans zero) positive
  · exact plain divided
  · split at divided
    · exact plain divided
    · rename_i divisor state linear
      obtain ⟨eval, stateMatched⟩ := matched.linear? linear rightDescribes.means.faithful.linear
      split at divided
      · simp at divided
      · rename_i fact moved
        obtain ⟨made, defined, same⟩ := chain_eq_ok.mp divided
        have holds : Constraints.Holds numbers fact := by
          unfold Constraints.Holds
          rw [LinearForm.eval_offset? _ moved, eval, rightDescribes.means.value]
          omega
        obtain ⟨after, rfl, kept⟩ :=
          defineUnder?_of_holds { path with state } stateMatched holds defined
        obtain rfl := Except.ok.inj same
        exact ⟨after, by simp, kept⟩

/-- One of the paths behind an operator is that of the run. -/
theorem covers_binary {ty : Ty} {lhs rhs : ValueId} (ordered : arena.Scoped)
    (within : path.Within arena)
    (stepped : binary arena path dest op ty lhs rhs = .ok (continuations, later))
    (respects : later.Respects course.valuation numbers)
    (lefts : ∀ left, path.frame.get? lhs = .ok left → arena.Describes numbers mindful left ty first)
    (rights : ∀ right, path.frame.get? rhs = .ok right →
      arena.Describes numbers mindful right ty second)
    (integer : op.isArithmetic = true → ∃ width, ty = .uint width)
    (computed : op.eval? ty first.value second.value = some value)
    (matched : path.state.Matches course arena numbers mindful effects)
    (attends : attendsOperator mindful arena path op ty lhs rhs = true) :
    ∃ id state, .pending (Path.define { path with state } dest id) ∈ continuations ∧
      later.Describes numbers mindful id (op.resultTy ty) (computedCell op first second value) ∧
      state.Matches course later numbers mindful effects := by
  obtain ⟨left, right, whole, middle, leftFound, rightFound, stored, outcome⟩ :=
    binary_eq_ok stepped
  have leftDescribes := lefts left leftFound
  have rightDescribes := rights right rightFound
  have grown := Arena.extends_of_intern stored
  have middleOrdered : middle.Scoped := Arena.scoped_of_intern ordered stored
    (Arena.operands_lt_size leftDescribes.means.faithful rightDescribes.means.faithful)
  have describes (unforked : middle.const? whole = none → Arena.isLinear op = false)
      (above : mindful → op = .sub → ¬ first.value < second.value)
      (middleRespects : middle.Respects course.valuation numbers) :
      middle.Describes numbers mindful whole (op.resultTy ty)
        (computedCell op first second value) := by
    refine describes_whole ordered stored leftDescribes rightDescribes ?_ above
    rw [← leftDescribes.means.value, ← rightDescribes.means.value] at computed
    refine Arena.means_binary ordered stored middleRespects leftDescribes.means.faithful
      rightDescribes.means.faithful (fun _ => leftDescribes.means.typed) computed
      (fun linear => integer (Arena.isArithmetic_of_isLinear linear)) fun linear _ _ _ unknown => ?_
    rw [unforked unknown] at linear
    simp at linear
  have middleMatched := matched.mono ordered grown
  rcases outcome with ⟨rfl, rfl, plain⟩ | ⟨unknown, linear, forked⟩ | ⟨division, divided, rfl⟩
  · refine ⟨whole, path.state, List.mem_singleton.mpr rfl, describes (fun unknown => ?_)
      (fun mind difference below => ?_) respects, middleMatched⟩
    · exact plain.resolve_left (by simp [unknown])
    · subst difference
      have known := plain.resolve_right (by simp [Arena.isLinear])
      unfold attendsOperator at attends
      have result : BinaryOp.sub.resultTy ty = ty := rfl
      rw [result] at stored
      simp only [leftFound, rightFound, stored, Arena.isLinear, mind, Bool.not_true, Bool.false_or,
        Bool.and_eq_true, beq_self_eq_true] at attends
      rw [← leftDescribes.means.value, ← rightDescribes.means.value] at below
      refine not_below_of_asks attends.2 respects (.inr ?_) below
      rcases Arena.symbol_of_binary stored with ⟨unknown, _⟩ | ⟨_, _, _, leftKnown, rightKnown, _⟩
      · rw [unknown] at known
        simp at known
      · rw [grown.const?_eq leftDescribes.means.faithful.inside,
          grown.const?_eq rightDescribes.means.faithful.inside, leftKnown, rightKnown]
        exact ⟨rfl, rfl⟩
  · obtain ⟨width, rfl⟩ := integer (Arena.isArithmetic_of_isLinear linear)
    rw [Arena.resultTy_of_isLinear linear] at stored ⊢
    unfold attendsOperator at attends
    simp only [leftFound, rightFound, stored, linear, Bool.not_true, Bool.false_or,
      Bool.and_eq_true] at attends
    have grows := grows_fork middleOrdered (within.mono grown)
      (Nat.lt_of_lt_of_le leftDescribes.means.faithful.inside grown.size_le)
      (Nat.lt_of_lt_of_le rightDescribes.means.faithful.inside grown.size_le)
      (Arena.lt_size (Arena.symbol_of_intern stored)) forked
    exact covers_fork ordered stored middleOrdered unknown linear leftDescribes rightDescribes
      computed forked grows.grown respects matched attends.1 fun mind difference => by
      simpa [mind, difference] using attends.2
  · obtain ⟨state, member, kept⟩ := covers_divide division (rightDescribes.mono ordered grown)
      respects computed divided middleMatched
    refine ⟨whole, state, member, describes (fun _ => ?_) (fun _ difference => ?_) respects, kept⟩
    · rcases division with rfl | rfl <;> rfl
    · rcases division with rfl | rfl <;> simp at difference

end Operators

end Explorer

end Covenant
