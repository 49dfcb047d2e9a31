import Covenant.Proofs.Lowering.Following
import Covenant.Proofs.Lowering.Names

/-!
How the variables of source code are kept in the local variables of a function, and why lowering
gives expressions the types that they have.
-/

namespace Covenant

theorem forall₂_imp_mem {α β : Type} {relation other : α → β → Prop} {left : List α}
    {right : List β} (all : List.Forall₂ relation left right)
    (implies : ∀ first second, second ∈ right → relation first second → other first second) :
    List.Forall₂ other left right := by
  induction all with
  | nil => exact .nil
  | cons first _ ih =>
    exact .cons (implies _ _ List.mem_cons_self first)
      (ih fun _ _ member holds => implies _ _ (List.mem_cons_of_mem _ member) holds)

theorem forall₂_exists_left {α β : Type} {relation : α → β → Prop} {left : List α} {right : List β}
    (all : List.Forall₂ relation left right) {second : β} (member : second ∈ right) :
    ∃ first, relation first second := by
  induction all with
  | nil => simp at member
  | cons first _ ih =>
    rcases List.mem_cons.mp member with rfl | later
    · exact ⟨_, first⟩
    · exact ih later

def Variable.StoredIn (builder : Builder) (cells : List Cell) (var : Variable) (slot : LocalId) :
    Prop :=
  (∃ entry, builder.locals[slot]? = some entry ∧ entry.ty = var.ty) ∧
    ∃ cell, cells[slot]? = some cell ∧ cell.value = var.value

abbrev NamesKept (builder : Builder) (cells : List Cell) (names : List (String × Variable))
    (slots : List (String × LocalId)) : Prop :=
  List.Forall₂ (fun named slotted => named.1 = slotted.1 ∧ named.2.StoredIn builder cells slotted.2)
    names slots

structure Scopes.KeptIn (scopes : Scopes) (builder : Builder) (cells : List Cell) : Prop where
  names : List.Forall₂ (NamesKept builder cells) scopes builder.visible
  distinct : (builder.visible.flatMap fun slots => slots.map Prod.snd).Nodup

section Finding

variable {builder : Builder} {cells : List Cell}

theorem NamesKept.lookup {names : List (String × Variable)} {slots : List (String × LocalId)}
    (kept : NamesKept builder cells names slots) (name : String) :
    (names.lookup name = none ∧ slots.lookup name = none) ∨
      ∃ var slot, names.lookup name = some var ∧ slots.lookup name = some slot ∧
      var.StoredIn builder cells slot := by
  induction kept with
  | nil => exact .inl ⟨rfl, rfl⟩
  | cons first later ih =>
    rename_i named slotted names slots
    obtain ⟨written, var⟩ := named
    obtain ⟨declared, slot⟩ := slotted
    obtain ⟨same, stored⟩ := first
    dsimp only at same stored
    subst same
    simp only [List.lookup_cons]
    cases name == written with
    | true => exact .inr ⟨var, slot, rfl, rfl, stored⟩
    | false => exact ih

theorem NamesKept.apart {names : List (String × Variable)} {slots : List (String × LocalId)}
    (kept : NamesKept builder cells names slots) {slot : LocalId}
    (other : slot ∉ slots.map Prod.snd) (cell : Cell) :
    NamesKept builder (cells.set slot cell) names slots := by
  refine forall₂_imp_mem kept fun named slotted member stored => ?_
  obtain ⟨same, entry, held, found, value⟩ := stored
  have apart : slot ≠ slotted.2 := by
    rintro rfl
    exact other (List.mem_map_of_mem member)
  exact ⟨same, entry, held, by rw [List.getElem?_set_ne apart, found], value⟩

theorem NamesKept.setIn {names : List (String × Variable)} {slots : List (String × LocalId)}
    (kept : NamesKept builder cells names slots) {name : String} {slot : LocalId}
    (found : slots.lookup name = some slot) (distinct : (slots.map Prod.snd).Nodup) (cell : Cell) :
    NamesKept builder (cells.set slot cell) (Scopes.setIn name cell.value names) slots := by
  induction kept with
  | nil => exact .nil
  | cons first later ih =>
    rename_i named slotted names slots
    obtain ⟨written, var⟩ := named
    obtain ⟨declared, other⟩ := slotted
    obtain ⟨same, typed, held, there, value⟩ := first
    dsimp only at same typed there value
    subst same
    simp only [List.map_cons, List.nodup_cons] at distinct
    simp only [List.lookup_cons] at found
    simp only [Scopes.setIn]
    cases here : name == written with
    | true =>
      simp only [here, Option.some.injEq] at found
      subst found
      simp only [if_true]
      have inside := (List.getElem?_eq_some_iff.mp there).1
      exact .cons ⟨rfl, typed, cell, by rw [List.getElem?_set_self inside], rfl⟩
        (NamesKept.apart later distinct.1 cell)
    | false =>
      simp only [here] at found
      simp only [Bool.false_eq_true, if_false]
      have apart : slot ≠ other := by
        rintro rfl
        exact distinct.1 (List.mem_map_of_mem (mem_of_lookup found))
      exact .cons ⟨rfl, typed, held, by rw [List.getElem?_set_ne apart, there], value⟩
        (ih found distinct.2)

namespace Scopes.KeptIn

variable {scopes : Scopes}

theorem find? (kept : scopes.KeptIn builder cells) (name : String) :
    (scopes.find? name = none ∧ builder.find? name = none) ∨
      ∃ var slot, scopes.find? name = some var ∧ builder.find? name = some slot ∧
      var.StoredIn builder cells slot := by
  have lists := kept.names
  unfold Scopes.find? Builder.find?
  clear kept
  generalize builder.visible = visible at lists
  induction lists with
  | nil => exact .inl ⟨rfl, rfl⟩
  | cons first _ ih =>
    simp only [List.findSome?_cons]
    rcases first.lookup name with ⟨none, absent⟩ | ⟨var, slot, found, there, stored⟩
    · simp only [none, absent]
      exact ih
    · simp only [found, there]
      exact .inr ⟨var, slot, rfl, rfl, stored⟩

theorem findSlot (kept : scopes.KeptIn builder cells) {name : String} {slot : LocalId}
    (found : builder.find? name = some slot) :
    ∃ var, scopes.find? name = some var ∧ var.StoredIn builder cells slot := by
  rcases kept.find? name with ⟨_, absent⟩ | ⟨var, other, present, there, stored⟩
  · rw [absent] at found
    simp at found
  · rw [found] at there
    obtain rfl := Option.some.inj there
    exact ⟨var, present, stored⟩

theorem localType (kept : scopes.KeptIn builder cells) (name : String) :
    (builder.find? name).map builder.localType = (scopes.find? name).map Variable.ty := by
  rcases kept.find? name with ⟨none, absent⟩
    | ⟨var, slot, present, there, ⟨entry, declared, same⟩, _⟩
  · simp [none, absent]
  · simp [present, there, Builder.localType, declared, same]

theorem declared (kept : scopes.KeptIn builder cells) {slots : List (String × LocalId)}
    (inner : slots ∈ builder.visible) {name : String} {slot : LocalId}
    (named : (name, slot) ∈ slots) :
    ∃ entry, builder.locals[slot]? = some entry := by
  obtain ⟨names, listed⟩ := forall₂_exists_left kept.names inner
  obtain ⟨var, _, ⟨entry, found, _⟩, _⟩ := forall₂_exists_left listed named
  exact ⟨entry, found⟩

theorem transfer (kept : scopes.KeptIn builder cells) {more : Builder}
    (visible : more.visible = builder.visible)
    (locals : ∀ slots ∈ builder.visible, ∀ named ∈ slots, ∀ entry, builder.locals[named.2]? =
      some entry →
      more.locals[named.2]? = some entry) : scopes.KeptIn more cells := by
  refine ⟨?_, by rw [visible]; exact kept.distinct⟩
  rw [visible]
  refine forall₂_imp_mem kept.names fun names slots inner all =>
    forall₂_imp_mem all fun named slotted here stored => ?_
  obtain ⟨same, ⟨entry, declared, ty⟩, cell⟩ := stored
  exact ⟨same, ⟨entry, locals slots inner slotted here entry declared, ty⟩, cell⟩

theorem outer (kept : scopes.KeptIn builder cells) {more : Builder}
    (visible : more.visible = builder.visible) (locals : builder.locals <+: more.locals) :
    scopes.KeptIn more cells := by
  refine kept.transfer visible fun slots _ named _ entry declared => ?_
  obtain ⟨inside, there⟩ := List.getElem?_eq_some_iff.mp declared
  rw [List.prefix_iff_getElem?.mp locals named.2 inside, there]

theorem back (kept : scopes.KeptIn builder cells) {fewer : Builder} {others : Scopes}
    {older : List Cell} (before : others.KeptIn fewer older)
    (visible : builder.visible = fewer.visible) (locals : fewer.locals <+: builder.locals) :
    scopes.KeptIn fewer cells := by
  refine kept.transfer visible.symm fun slots inner named here entry declared => ?_
  obtain ⟨known, found⟩ := before.declared (visible ▸ inner) here
  obtain ⟨inside, there⟩ := List.getElem?_eq_some_iff.mp found
  rw [List.prefix_iff_getElem?.mp locals named.2 inside, there] at declared
  rw [found, Option.some.inj declared]

theorem push (kept : scopes.KeptIn builder cells) :
    Scopes.KeptIn ([] :: scopes) { builder with visible := [] :: builder.visible } cells :=
  ⟨.cons .nil kept.names, kept.distinct⟩

theorem pop (kept : scopes.KeptIn builder cells) :
    Scopes.KeptIn scopes.tail { builder with visible := builder.visible.tail } cells := by
  have names : List.Forall₂ (NamesKept builder cells) scopes.tail builder.visible.tail := by
    have all := kept.names
    generalize builder.visible = visible at all
    cases all with
    | nil => exact .nil
    | cons _ rest => exact rest
  refine ⟨names, ?_⟩
  have distinct := kept.distinct
  cases visible : builder.visible with
  | nil => simp
  | cons slots outer =>
    rw [visible, List.flatMap_cons] at distinct
    exact (List.nodup_append.mp distinct).2.1

/-- A new variable is kept in a new local variable. -/
theorem declare (kept : scopes.KeptIn builder cells) (name : String) (ty : Ty) (cell : Cell)
    (room : builder.locals.length < cells.length) :
    (scopes.declare name ⟨ty, cell.value⟩).KeptIn (builder.addLocal name ty)
      (cells.set builder.locals.length cell) := by
  have older : List.Forall₂
    (NamesKept (builder.addLocal name ty) (cells.set builder.locals.length cell)) scopes
      builder.visible := by
    refine kept.names.imp fun names slots all => all.imp fun named slotted stored => ?_
    obtain ⟨same, ⟨entry, declared, typed⟩, held, found, value⟩ := stored
    have inside := (List.getElem?_eq_some_iff.mp declared).1
    refine ⟨same, ⟨entry, ?_, typed⟩, held, ?_, value⟩
    · simp only [Builder.addLocal]
      rw [List.getElem?_append_left inside, declared]
    · rw [List.getElem?_set_ne (Nat.ne_of_gt inside), found]
  have newest : Variable.StoredIn (builder.addLocal name ty) (cells.set builder.locals.length cell)
      ⟨ty, cell.value⟩ builder.locals.length := by
    refine ⟨⟨⟨name, ty⟩, ?_, rfl⟩, cell, ?_, rfl⟩
    · simp [Builder.addLocal]
    · rw [List.getElem?_set_self room]
  have fresh : ∀ slots ∈ builder.visible, ∀ named ∈ slots, named.2 ≠ builder.locals.length := by
    intro slots inner named here same
    obtain ⟨entry, declared⟩ := kept.declared inner here
    have inside := (List.getElem?_eq_some_iff.mp declared).1
    exact Nat.lt_irrefl _ (same ▸ inside)
  have distinct := kept.distinct
  have visible : (builder.addLocal name ty).visible =
      builder.visible.modify 0 fun names => (name, builder.locals.length) :: names := rfl
  constructor
  · rw [visible]
    unfold Scopes.declare
    revert older
    generalize builder.visible = shown
    intro older
    cases older with
    | nil => exact .nil
    | cons first rest => exact .cons (.cons ⟨rfl, newest⟩ first) rest
  · rw [visible]
    revert fresh distinct
    generalize builder.visible = shown
    intro fresh distinct
    cases shown with
    | nil => exact distinct
    | cons slots outer =>
      change (builder.locals.length ::
        ((slots :: outer).flatMap fun slots => slots.map Prod.snd)).Nodup
      refine List.nodup_cons.mpr ⟨?_, distinct⟩
      intro taken
      obtain ⟨inner, listed, here⟩ := List.mem_flatMap.mp taken
      obtain ⟨named, member, same⟩ := List.mem_map.mp here
      exact fresh inner listed named member same

/-- A variable that is changed is kept in its local variable, and no other variable is touched. -/
theorem set (kept : scopes.KeptIn builder cells) {name : String} {slot : LocalId}
    (found : builder.find? name = some slot) (cell : Cell) :
    (scopes.set name cell.value).KeptIn builder (cells.set slot cell) := by
  refine ⟨?_, kept.distinct⟩
  obtain ⟨names, distinct⟩ := kept
  unfold Builder.find? at found
  revert found names distinct
  generalize builder.visible = visible
  intro found names distinct
  induction names with
  | nil => exact .nil
  | cons first rest ih =>
    rename_i named slots scopes outer
    rw [List.flatMap_cons, List.nodup_append] at distinct
    simp only [List.findSome?_cons] at found
    simp only [Scopes.set]
    rcases first.lookup name with ⟨none, absent⟩ | ⟨var, other, present, there, _⟩
    · simp only [absent] at found
      simp only [none, Option.isSome_none, Bool.false_eq_true, if_false]
      refine .cons (first.apart ?_ cell) (ih found distinct.2.1)
      intro taken
      obtain ⟨inner, listed, here⟩ := List.exists_of_findSome?_eq_some found
      have later : slot ∈ outer.flatMap fun slots => slots.map Prod.snd :=
        List.mem_flatMap.mpr ⟨inner, listed, List.mem_map_of_mem (mem_of_lookup here)⟩
      exact distinct.2.2 slot taken slot later rfl
    · simp only [there, Option.some.injEq] at found
      subst found
      simp only [present, Option.isSome_some, if_true]
      refine .cons (first.setIn there distinct.1 cell)
        (forall₂_imp_mem rest fun names inner listed all => all.apart ?_ cell)
      intro taken
      exact distinct.2.2 other (List.mem_map_of_mem (mem_of_lookup there)) other
        (List.mem_flatMap.mpr ⟨inner, listed, taken⟩) rfl

end Scopes.KeptIn

end Finding

namespace Build

variable {around : Surroundings} {builder : Builder} {scopes : Scopes} {cells : List Cell}

structure KnowsFields (around : Surroundings) (scope : ContractScope) : Prop where
  fields : ∀ name, scope.field? name = around.decl.fieldType? name
  signatures : ∀ name, scope.signature? name = around.decl.signature? name

theorem typeHint_eq (knows : KnowsFields around builder.scope) (kept : scopes.KeptIn builder cells)
    (value : Expression) : typeHint builder value = around.hint? scopes value := by
  induction value using typeHint.induct builder with
  | case5 span name => exact kept.localType name.name
  | case6 span field => exact knows.fields field.name
  | case7 span field key keyTy valueTy found =>
    simp only [typeHint, Surroundings.hint?, ← knows.fields, found]
  | case8 span field key other =>
    simp only [typeHint, Surroundings.hint?, ← knows.fields]
  | case9 span function args => simp only [typeHint, Surroundings.hint?, knows.signatures]
  | case13 span op lhs rhs arithmetic left right =>
    simp only [typeHint, Surroundings.hint?, arithmetic, if_true, left, right]
  | case14 span op lhs rhs other =>
    simp only [typeHint, Surroundings.hint?, other, Bool.false_eq_true, if_false]
  | _ => rfl

theorem selfCall_type {function : Ident} {count : Nat} {span : Span}
    {lower : List Ty → Build (List ValueId)} {final : Builder} {result : ValueId × Ty}
    (built : selfCall function count span lower builder = .ok (some result) final) :
    ∃ signature, builder.scope.signature? function.name = some signature ∧ signature.returns =
      some result.2 := by
  simp only [selfCall, bind_eq_ok, get_eq_ok] at built
  obtain ⟨_, _, ⟨rfl, rfl⟩, built⟩ := built
  cases known : builder.scope.signature? function.name with
  | none => simp [known, fail_eq_ok] at built
  | some signature =>
    simp only [known, ite_eq_ok, fail_eq_ok, and_false, false_or, bind_eq_ok] at built
    obtain ⟨_, args, middle, _, built⟩ := built
    cases returns : signature.returns with
    | none => simp [returns, map_eq_ok] at built
    | some ty =>
      simp only [returns, bind_eq_ok, pure_eq_ok, Option.some.injEq] at built
      obtain ⟨dest, _, _, _, _, _, rfl, _⟩ := built
      exact ⟨signature, rfl, returns⟩

/-- Lowering gives an expression the type that it has. -/
theorem expression_type (knows : KnowsFields around builder.scope)
    (kept : scopes.KeptIn builder cells) :
    ∀ (value : Expression) (expected : Option Ty) {final : Builder} {result : ValueId × Ty},
      expression value expected builder = .ok result final →
        result.2 = around.typeOf scopes value expected
  | .int span digits radix, expected, final, result, built => by
    simp only [expression, literal, ite_eq_ok, bind_eq_ok, fail_eq_ok, pure_eq_ok, and_false,
      or_false] at built
    obtain ⟨_, _, _, _, _, _, _, rfl, _⟩ := built
    rfl
  | .bool span truth, expected, final, result, built => by
    simp only [expression, bind_eq_ok, pure_eq_ok] at built
    obtain ⟨_, _, _, _, _, _, rfl, _⟩ := built
    rfl
  | .str span text, expected, final, result, built => by simp [expression, fail_eq_ok] at built
  | .var span name, expected, final, result, built => by
    simp only [expression, bind_eq_ok, localNamed_eq_ok, fresh_eq_ok, emit_eq_ok, get_eq_ok,
      pure_eq_ok] at built
    obtain ⟨slot, _, ⟨found, rfl⟩, _, _, ⟨rfl, rfl⟩, _, _, rfl, _, _, ⟨rfl, rfl⟩, rfl, _⟩ := built
    have same := kept.localType name.name
    rw [found] at same
    simp only [Surroundings.typeOf, Surroundings.hint?, ← same, Option.map_some, Option.getD_some]
    rfl
  | .field span field, expected, final, result, built => by
    simp only [expression, bind_eq_ok, scalarType_eq_ok, pure_eq_ok] at built
    obtain ⟨ty, _, ⟨found, _⟩, _, _, _, _, _, _, rfl, _⟩ := built
    rw [knows.fields] at found
    simp [Surroundings.typeOf, Surroundings.hint?, found]
  | .mapIndex span field key, expected, final, result, built => by
    simp only [expression, bind_eq_ok, entryTypes_eq_ok, pure_eq_ok] at built
    obtain ⟨types, _, ⟨found, _⟩, _, _, _, _, _, _, _, _, _, rfl, _⟩ := built
    rw [knows.fields] at found
    simp [Surroundings.typeOf, Surroundings.hint?, found]
  | .selfCall span function args, expected, final, result, built => by
    simp only [expression, bind_eq_ok] at built
    obtain ⟨called, middle, lowered, built⟩ := built
    cases called with
    | none => simp [fail_eq_ok] at built
    | some found =>
      simp only [pure_eq_ok] at built
      obtain ⟨rfl, _⟩ := built
      obtain ⟨signature, known, returns⟩ := selfCall_type lowered
      rw [knows.signatures] at known
      simp [Surroundings.typeOf, Surroundings.hint?, known, returns]
  | .env span var, expected, final, result, built => by
    simp only [expression, bind_eq_ok, pure_eq_ok] at built
    obtain ⟨_, _, _, _, _, _, rfl, _⟩ := built
    rfl
  | .externalCall span .call target amount, expected, final, result, built => by
    simp only [expression, bind_eq_ok, pure_eq_ok] at built
    obtain ⟨_, _, _, rfl, _⟩ := built
    rfl
  | .externalCall span .transfer target amount, expected, final, result, built => by
    simp [expression, fail_eq_ok] at built
  | .binary span op lhs rhs, expected, final, result, built => by
    simp only [expression, ite_eq_ok] at built
    rcases built with ⟨logical, built⟩ | ⟨plain, built⟩
    · simp only [bind_eq_ok, pure_eq_ok] at built
      obtain ⟨_, _, _, _, _, _, _, _, _, _, _, _, rfl, _⟩ := built
      have other : op.isArithmetic = false := by
        cases op <;> simp_all [BinaryOp.isLogical, BinaryOp.isArithmetic]
      simp [Surroundings.typeOf, other]
    · simp only [bind_eq_ok, get_eq_ok, operation, ite_eq_ok, fail_eq_ok, and_false, false_or,
        pure_eq_ok] at built
      obtain ⟨_, _, ⟨rfl, rfl⟩, ⟨left, leftTy⟩, middle, lowered, ⟨right, rightTy⟩, _, _, _, _, _, _,
        _, _, _, _, rfl, _⟩ := built
      have leftType := expression_type knows kept lhs _ lowered
      rw [typeHint_eq knows kept, typeHint_eq knows kept] at leftType
      have hint : around.operandHint? scopes op lhs rhs expected =
          ((around.hint? scopes lhs).or (around.hint? scopes rhs)).or
            (if op.isArithmetic then expected else none) := by
        simp [Surroundings.operandHint?, plain]
      cases arithmetic : op.isArithmetic with
      | true => simpa [Surroundings.typeOf, arithmetic, hint] using leftType
      | false => simp [Surroundings.typeOf, arithmetic]
  | .not span operand, expected, final, result, built => by
    simp only [expression, bind_eq_ok, pure_eq_ok] at built
    obtain ⟨_, _, _, _, _, _, _, _, _, rfl, _⟩ := built
    rfl

end Build

end Covenant
