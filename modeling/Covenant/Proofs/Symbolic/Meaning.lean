import Covenant.Proofs.Symbolic.Contents
import Covenant.Proofs.Symbolic.Values
import Covenant.Run.Machine

/-!
What is told of a value stays the same when more values are stored. So a value means one thing
during the whole of a search, and what was found out about it earlier can be used later.
-/

namespace Covenant

namespace Arena

structure Scoped (arena : Arena) : Prop where
  ranked : arena.Ranked
  refers : ∀ (id : SymbolId) (symbol : Symbol), arena.symbols[id]? = some symbol →
    ∀ part ∈ references symbol.term, part < id

variable {arena later : Arena} {id lhs rhs : SymbolId} {symbol : Symbol} {term : Term} {ty : Ty}

/-! Storing values. -/

theorem mem_references_of_operand {operand : SymbolId} (member : operand ∈ term.operands) :
    operand ∈ references term := by
  cases term <;> first | exact member | simp [Term.operands] at member

theorem references_fold (arena : Arena) (term : Term) (ty : Ty) {part : SymbolId}
    (member : part ∈ references (arena.fold term ty)) : part ∈ references term := by
  unfold fold at member
  split at member
  · split at member
    · split at member
      · simp [references] at member
      · exact member
    · exact member
  · split at member
    · simp [references] at member
    · exact member
  · exact member

theorem scoped_empty : Scoped empty where
  ranked := ranked_empty
  refers id symbol found := by simp [empty] at found

theorem Scoped.part_lt_size (ordered : arena.Scoped) (found : arena.symbols[id]? = some symbol)
    {part : SymbolId} (member : part ∈ references symbol.term) : part < arena.symbols.size :=
  Nat.lt_trans (ordered.refers id symbol found part member) (lt_size found)

theorem Scoped.intern (ordered : arena.Scoped)
    (parts : ∀ part ∈ references term, part < arena.symbols.size) (ty : Ty) :
    (arena.intern term ty).2.Scoped where
  ranked := ordered.ranked.intern
    (fun operand member => parts operand (mem_references_of_operand member)) ty
  refers := by
    rcases intern_cases arena term ty with ⟨id, same, _⟩ | ⟨same, _⟩
    · rw [same]
      exact ordered.refers
    · rw [same]
      intro id symbol found part member
      dsimp only at found
      rw [Array.getElem?_push] at found
      split at found
      · rename_i last
        obtain rfl := Option.some.inj found
        rw [last]
        exact parts part (references_fold arena term ty member)
      · exact ordered.refers id symbol found part member

theorem intern_lt_size (arena : Arena) (term : Term) (ty : Ty) :
    (arena.intern term ty).1 < (arena.intern term ty).2.symbols.size :=
  lt_size (getElem?_intern arena term ty)

/-! What is stored. -/

theorem Extends.size_le (extended : arena.Extends later) :
    arena.symbols.size ≤ later.symbols.size := by
  refine Nat.le_of_not_lt fun inside => ?_
  have found := extended _ _ (Array.getElem?_eq_getElem inside)
  simp at found

theorem Extends.ty_eq (extended : arena.Extends later) (inside : id < arena.symbols.size) :
    later.ty id = arena.ty id := by
  have here := Array.getElem?_eq_getElem inside
  simp only [Arena.ty, here, extended _ _ here]

theorem Extends.term?_eq (extended : arena.Extends later) (inside : id < arena.symbols.size) :
    later.term? id = arena.term? id := by
  have here := Array.getElem?_eq_getElem inside
  simp only [Arena.term?, here, extended _ _ here]

theorem Extends.const?_eq (extended : arena.Extends later) (inside : id < arena.symbols.size) :
    later.const? id = arena.const? id := by
  simp only [Arena.const?, extended.term?_eq inside]

/-! Linear forms and implied facts, by induction on how deeply values are nested. -/

theorem linearArithmetic?_extends (extended : arena.Extends later)
    (inside : id < arena.symbols.size) (op : BinaryOp) (isWrapped : Bool)
    (left right : RangedForm) :
    later.linearArithmetic? id op isWrapped left right =
      arena.linearArithmetic? id op isWrapped left right := by
  simp only [linearArithmetic?, atom, extended.ty_eq inside]

theorem linearWithin_extends (ordered : arena.Scoped) (extended : arena.Extends later)
    (depth : Nat) (inside : id < arena.symbols.size) :
    later.linearWithin depth id = arena.linearWithin depth id := by
  induction depth generalizing id with
  | zero => rfl
  | succ depth ih =>
    have found := Array.getElem?_eq_getElem inside
    have deeper (part : SymbolId) (member : part ∈ references arena.symbols[id].term) :
        later.linearWithin depth part = arena.linearWithin depth part :=
      ih (ordered.part_lt_size found member)
    simp only [linearWithin, extended.term?_eq inside, atom, extended.ty_eq inside,
      linearArithmetic?_extends extended inside]
    simp only [term?, found, Option.map_some]
    cases same : arena.symbols[id].term with
    | binary op lhs rhs =>
      rw [same] at deeper
      simp only [deeper lhs (by simp [references]), deeper rhs (by simp [references])]
    | wrapped op lhs rhs =>
      rw [same] at deeper
      simp only [deeper lhs (by simp [references]), deeper rhs (by simp [references])]
    | _ => rfl

theorem linear?_extends (ordered : arena.Scoped) (extended : arena.Extends later)
    (inside : id < arena.symbols.size) :
    later.linear? id = arena.linear? id :=
  linearWithin_extends ordered extended (id + 1) inside

theorem impliedWithin_extends (ordered : arena.Scoped) (extended : arena.Extends later)
    (depth : Nat) (inside : id < arena.symbols.size) (truth : Bool) :
    later.impliedWithin depth id truth = arena.impliedWithin depth id truth := by
  induction depth generalizing id truth with
  | zero => rfl
  | succ depth ih =>
    have found := Array.getElem?_eq_getElem inside
    have deeper (part : SymbolId) (member : part ∈ references arena.symbols[id].term)
        (truth : Bool) :
        later.impliedWithin depth part truth = arena.impliedWithin depth part truth :=
      ih (ordered.part_lt_size found member) truth
    have forms (part : SymbolId) (member : part ∈ references arena.symbols[id].term) :
        later.linear? part = arena.linear? part :=
      linear?_extends ordered extended (ordered.part_lt_size found member)
    simp only [impliedWithin, extended.term?_eq inside, extended.ty_eq inside]
    simp only [term?, found, Option.map_some]
    cases same : arena.symbols[id].term with
    | binary op lhs rhs =>
      rw [same] at deeper forms
      simp only [deeper lhs (by simp [references]), deeper rhs (by simp [references]),
        impliedByComparison, forms lhs (by simp [references]), forms rhs (by simp [references])]
    | not operand =>
      rw [same] at deeper
      simp only [deeper operand (by simp [references])]
    | _ => rfl

theorem implied?_extends (ordered : arena.Scoped) (extended : arena.Extends later)
    (inside : id < arena.symbols.size) (truth : Bool) :
    later.implied? id truth = arena.implied? id truth :=
  impliedWithin_extends ordered extended (id + 1) inside truth

theorem Faithful.extends {numbers : SymbolId → Nat} (faithful : arena.Faithful numbers id)
    (ordered : arena.Scoped) (extended : arena.Extends later) : later.Faithful numbers id where
  inside := Nat.lt_of_lt_of_le faithful.inside extended.size_le
  fits := by
    rw [extended.ty_eq faithful.inside]
    exact faithful.fits
  linear := by
    rw [linear?_extends ordered extended faithful.inside]
    exact faithful.linear
  implied := by
    rw [implied?_extends ordered extended faithful.inside]
    exact faithful.implied

/-! Underflow. -/

theorem underflowsWithin_of_lt (ranked : arena.Ranked) {depth other : Nat} (enough : id < depth)
    (also : id < other) :
    arena.underflowsWithin depth id = arena.underflowsWithin other id := by
  induction depth generalizing other id with
  | zero => exact absurd enough (Nat.not_lt_zero id)
  | succ depth ih =>
    obtain ⟨other, rfl⟩ := Nat.exists_eq_succ_of_ne_zero (Nat.ne_zero_of_lt also)
    simp only [underflowsWithin, term?]
    cases found : arena.symbols[id]? with
    | none => simp only [Option.map_none]
    | some symbol =>
      have deeper (operand : SymbolId) (member : operand ∈ symbol.term.operands) :
          arena.underflowsWithin depth operand = arena.underflowsWithin other operand := by
        have smaller := ranked.descends id symbol found operand member
        exact ih (Nat.lt_of_lt_of_le smaller (Nat.le_of_lt_succ enough))
          (Nat.lt_of_lt_of_le smaller (Nat.le_of_lt_succ also))
      obtain ⟨term, ty⟩ := symbol
      cases term with
      | binary op lhs rhs =>
        simp only [Option.map_some, deeper lhs (by simp [Term.operands]),
          deeper rhs (by simp [Term.operands])]
      | wrapped op lhs rhs =>
        simp only [Option.map_some, deeper lhs (by simp [Term.operands]),
          deeper rhs (by simp [Term.operands])]
      | not operand => simp only [Option.map_some, deeper operand (by simp [Term.operands])]
      | _ => simp only [Option.map_some]

theorem underflows_eq (ranked : arena.Ranked) (stored : arena.symbols[id]? = some symbol) :
    arena.underflows id =
      match symbol.term with
      | .wrapped op lhs rhs => op == .sub || arena.underflows lhs || arena.underflows rhs
      | .binary _ lhs rhs => arena.underflows lhs || arena.underflows rhs
      | .not operand => arena.underflows operand
      | _ => false := by
  have deeper (operand : SymbolId) (member : operand ∈ symbol.term.operands) :
      arena.underflowsWithin id operand = arena.underflows operand :=
    underflowsWithin_of_lt ranked (ranked.descends id symbol stored operand member)
      (Nat.lt_succ_self operand)
  rw [underflows, underflowsWithin, term?, stored, Option.map_some]
  obtain ⟨term, ty⟩ := symbol
  cases term with
  | binary op lhs rhs =>
    simp only [deeper lhs (by simp [Term.operands]), deeper rhs (by simp [Term.operands])]
  | wrapped op lhs rhs =>
    simp only [deeper lhs (by simp [Term.operands]), deeper rhs (by simp [Term.operands])]
  | not operand => simp only [deeper operand (by simp [Term.operands])]
  | _ => rfl

theorem underflowsWithin_extends (ordered : arena.Scoped) (extended : arena.Extends later)
    (depth : Nat) (inside : id < arena.symbols.size) :
    later.underflowsWithin depth id = arena.underflowsWithin depth id := by
  induction depth generalizing id with
  | zero => rfl
  | succ depth ih =>
    have found := Array.getElem?_eq_getElem inside
    have deeper (part : SymbolId) (member : part ∈ references arena.symbols[id].term) :
        later.underflowsWithin depth part = arena.underflowsWithin depth part :=
      ih (ordered.part_lt_size found member)
    simp only [underflowsWithin, extended.term?_eq inside]
    simp only [term?, found, Option.map_some]
    cases same : arena.symbols[id].term with
    | binary op lhs rhs =>
      rw [same] at deeper
      simp only [deeper lhs (by simp [references]), deeper rhs (by simp [references])]
    | wrapped op lhs rhs =>
      rw [same] at deeper
      simp only [deeper lhs (by simp [references]), deeper rhs (by simp [references])]
    | not operand =>
      rw [same] at deeper
      simp only [deeper operand (by simp [references])]
    | _ => rfl

theorem underflows_extends (ordered : arena.Scoped) (extended : arena.Extends later)
    (inside : id < arena.symbols.size) :
    later.underflows id = arena.underflows id :=
  underflowsWithin_extends ordered extended (id + 1) inside

end Arena

/-!
What symbolic values stand for in a run. The unknowns stand for what the run is given and finds, any
other value for what is computed from them; since values keep their numbers, this is fixed for all
that is stored during a search.
-/

/-! The meaning of values. -/

structure Valuation where
  param : Nat → Nat
  env : EnvVar → Nat
  field : String → Option Nat → Nat → Nat
  call : String → List Nat → List (String × Nat) → Nat
  external : Nat → Nat

def Term.value (valuation : Valuation) (types : SymbolId → Ty) (numbers : SymbolId → Nat) :
    Term → Nat
  | .const value => value
  | .param index => valuation.param index
  | .env var => valuation.env var
  | .field name key version => valuation.field name (key.map numbers) version
  | .binary op lhs rhs => (op.eval? (types lhs) (numbers lhs) (numbers rhs)).getD 0
  | .wrapped op lhs rhs => (op.eval? (types lhs) (numbers lhs) (numbers rhs)).getD 0
  | .not operand => ofBool (numbers operand == 0)
  | .call function args reads => valuation.call function (args.map numbers) reads
  | .external index => valuation.external index

theorem Term.value_congr (valuation : Valuation) (types : SymbolId → Ty)
    {numbers others : SymbolId → Nat} {term : Term}
    (same : ∀ part ∈ Arena.references term, numbers part = others part) :
    term.value valuation types numbers = term.value valuation types others := by
  cases term with
  | field name key version =>
    cases key with
    | none => rfl
    | some key => simp only [value, Option.map_some, same key (by simp [Arena.references])]
  | binary op lhs rhs =>
    simp only [value, same lhs (by simp [Arena.references]), same rhs (by simp [Arena.references])]
  | wrapped op lhs rhs =>
    simp only [value, same lhs (by simp [Arena.references]), same rhs (by simp [Arena.references])]
  | not operand => simp only [value, same operand (by simp [Arena.references])]
  | call function args reads =>
    have mapped : args.map numbers = args.map others := List.map_congr_left fun part member =>
      same part member
    simp only [value, mapped]
  | _ => rfl

namespace Arena

def Respects (arena : Arena) (valuation : Valuation) (numbers : SymbolId → Nat) : Prop :=
  ∀ (id : SymbolId) (symbol : Symbol), arena.symbols[id]? = some symbol →
    numbers id = symbol.term.value valuation arena.ty numbers

def meaning (arena : Arena) (valuation : Valuation) (id : SymbolId) : Nat :=
  match arena.symbols[id]? with
  | some symbol =>
    symbol.term.value valuation arena.ty fun part => if part < id then meaning arena valuation part
      else 0
  | none => 0

theorem respects_meaning {arena : Arena} (ordered : arena.Scoped) (valuation : Valuation) :
    arena.Respects valuation (arena.meaning valuation) := by
  intro id symbol found
  rw [meaning, found]
  refine Term.value_congr valuation arena.ty fun part member => ?_
  rw [if_pos (ordered.refers id symbol found part member)]

end Arena

theorem Term.value_types {valuation : Valuation} {numbers : SymbolId → Nat} {term : Term}
    {types others : SymbolId → Ty}
    (same : ∀ part ∈ Arena.references term, types part = others part) :
    term.value valuation types numbers = term.value valuation others numbers := by
  cases term with
  | binary op lhs rhs => simp only [value, same lhs (by simp [Arena.references])]
  | wrapped op lhs rhs => simp only [value, same lhs (by simp [Arena.references])]
  | _ => rfl

namespace Arena

structure Means (arena : Arena) (numbers : SymbolId → Nat) (id : SymbolId) (ty : Ty) (value : Nat) :
    Prop where
  value : numbers id = value
  typed : arena.ty id = ty
  faithful : arena.Faithful numbers id

structure Describes (arena : Arena) (numbers : SymbolId → Nat) (mindful : Bool) (id : SymbolId)
    (ty : Ty) (cell : Cell) :
    Prop where
  means : arena.Means numbers id ty cell.value
  tainted : mindful → cell.tainted = true → arena.underflows id = true

variable {arena later : Arena} {numbers : SymbolId → Nat} {valuation : Valuation}
  {id lhs rhs : SymbolId} {op : BinaryOp} {ty : Ty} {mindful : Bool}

theorem Means.mono {value : Nat} (means : arena.Means numbers id ty value) (ordered : arena.Scoped)
    (grown : arena.Extends later) : later.Means numbers id ty value where
  value := means.value
  typed := (grown.ty_eq means.faithful.inside).trans means.typed
  faithful := means.faithful.extends ordered grown

theorem Describes.mono {cell : Cell} (describes : arena.Describes numbers mindful id ty cell)
    (ordered : arena.Scoped) (grown : arena.Extends later) :
    later.Describes numbers mindful id ty cell where
  means := describes.means.mono ordered grown
  tainted := by
    rw [underflows_extends ordered grown describes.means.faithful.inside]
    exact describes.tainted

theorem Means.describes {value : Nat} (means : arena.Means numbers id ty value) :
    arena.Describes numbers mindful id ty (.clean value) :=
  ⟨means, fun _ tainted => by simp [Cell.clean] at tainted⟩

/-! The numbers of values that are stored. -/

theorem Respects.of_extends (respects : later.Respects valuation numbers) (ordered : arena.Scoped)
    (grown : arena.Extends later) : arena.Respects valuation numbers := by
  intro id symbol found
  rw [respects id symbol (grown id symbol found)]
  exact Term.value_types fun part member => grown.ty_eq (ordered.part_lt_size found member)

theorem symbol_of_intern {term : Term} (stored : arena.intern term ty = (id, later)) :
    later.symbols[id]? = some ⟨arena.fold term ty, ty⟩ := by
  have found := getElem?_intern arena term ty
  rw [stored] at found
  exact found

theorem extends_of_intern {term : Term} (stored : arena.intern term ty = (id, later)) :
    arena.Extends later := by
  have grown := intern_extends arena term ty
  rw [stored] at grown
  exact grown

theorem fold_given {term : Term} (given : term.isGiven = true) (ty : Ty) :
    arena.fold term ty = term := by
  cases term <;> first | rfl | simp [Term.isGiven] at given

theorem means_of_given {term : Term} (ordered : arena.Scoped)
    (found : arena.symbols[id]? = some ⟨term, ty⟩) (respects : arena.Respects valuation numbers)
    (given : term.isGiven = true) (fits : term.value valuation arena.ty numbers < ty.bound) :
    arena.Means numbers id ty (term.value valuation arena.ty numbers) := by
  have value := respects id _ found
  refine ⟨value, ty_of_stored found, faithful_given ordered.ranked given found ?_⟩
  rw [value, Ty.le_maxValue_iff]
  exact fits

theorem means_given {term : Term} (ordered : later.Scoped)
    (stored : arena.intern term ty = (id, later)) (respects : later.Respects valuation numbers)
    (given : term.isGiven = true) (fits : term.value valuation later.ty numbers < ty.bound) :
    later.Means numbers id ty (term.value valuation later.ty numbers) := by
  have found := symbol_of_intern stored
  rw [fold_given given] at found
  exact means_of_given ordered found respects given fits

theorem means_const {value : Nat} (ordered : later.Scoped)
    (stored : arena.internConst value ty = (id, later))
    (respects : later.Respects valuation numbers) (small : value < ty.bound) :
    later.Means numbers id ty value := by
  unfold internConst at stored
  have found := symbol_of_intern stored
  have held : arena.fold (.const (ty.wrap value)) ty = .const value := by
    rw [Ty.wrap_of_lt small]
    rfl
  rw [held] at found
  have same := respects id _ found
  refine ⟨same, ty_of_stored found, faithful_const ordered.ranked found ?_ same⟩
  rw [same, Ty.le_maxValue_iff]
  exact small

theorem stored_of_const? {value : Nat} (known : arena.const? id = some value) :
    ∃ ty, arena.symbols[id]? = some ⟨.const value, ty⟩ := by
  obtain ⟨⟨term, ty⟩, there, same⟩ := Option.map_eq_some_iff.mp (const?_eq_some.mp known)
  dsimp only at same
  exact ⟨ty, same ▸ there⟩

theorem value_of_const {value : Nat} (known : arena.const? id = some value)
    (respects : arena.Respects valuation numbers) :
    numbers id = value := by
  obtain ⟨ty, found⟩ := stored_of_const? known
  exact respects id _ found

theorem not_underflows_of_const {value : Nat} (known : arena.const? id = some value) :
    arena.underflows id = false := by
  obtain ⟨ty, found⟩ := stored_of_const? known
  simp only [underflows, underflowsWithin, term?, found, Option.map_some]

theorem means_not (ordered : arena.Scoped) (stored : arena.intern (.not lhs) .bool = (id, later))
    (respects : later.Respects valuation numbers) (operand : arena.Faithful numbers lhs) :
    later.Means numbers id .bool (ofBool (numbers lhs == 0)) := by
  have found := symbol_of_intern stored
  have grown := extends_of_intern stored
  have parts : ∀ part ∈ references (.not lhs), part < arena.symbols.size := by
    intro part member
    rw [List.mem_singleton.mp member]
    exact operand.inside
  have laterOrdered : later.Scoped := by
    have scope := ordered.intern parts .bool
    rw [stored] at scope
    exact scope
  simp only [fold] at found
  split at found
  · rename_i value known
    have same := value_of_const known (respects.of_extends ordered grown)
    have told := respects id _ found
    rw [same]
    refine ⟨told, ty_of_stored found, faithful_const laterOrdered.ranked found ?_ told⟩
    rw [told, Ty.le_maxValue_iff]
    exact ofBool_lt _
  · have told : numbers id = ofBool (numbers lhs == 0) := respects id _ found
    refine ⟨told, ty_of_stored found, faithful_not laterOrdered.ranked found ?_
      (operand.extends ordered grown) told⟩
    rw [told, Ty.le_maxValue_iff]
    exact ofBool_lt _

/-! Operators. -/

theorem scoped_of_intern {term : Term} (ordered : arena.Scoped)
    (stored : arena.intern term ty = (id, later))
    (parts : ∀ part ∈ references term, part < arena.symbols.size) : later.Scoped := by
  have scope := ordered.intern parts ty
  rw [stored] at scope
  exact scope

theorem operands_lt_size (left : arena.Faithful numbers lhs) (right : arena.Faithful numbers rhs) :
    ∀ part ∈ [lhs, rhs], part < arena.symbols.size := by
  intro part member
  simp only [List.mem_cons, List.not_mem_nil, or_false] at member
  rcases member with rfl | rfl
  · exact left.inside
  · exact right.inside

theorem fold_binary (arena : Arena) (op : BinaryOp) (lhs rhs : SymbolId) (ty : Ty) :
    arena.fold (.binary op lhs rhs) ty = .binary op lhs rhs ∨
      ∃ first second value, arena.const? lhs = some first ∧ arena.const? rhs = some second ∧
        op.eval? (arena.ty lhs) first second = some value ∧ arena.fold (.binary op lhs rhs) ty =
          .const (ty.wrap value) := by
  simp only [fold]
  split
  · rename_i first second leftKnown rightKnown
    split
    · rename_i value computed
      exact .inr ⟨first, second, value, leftKnown, rightKnown, computed, rfl⟩
    · exact .inl rfl
  · exact .inl rfl

theorem symbol_of_binary (stored : arena.intern (.binary op lhs rhs) ty = (id, later)) :
    (later.const? id = none ∧ later.symbols[id]? = some ⟨.binary op lhs rhs, ty⟩) ∨
      ∃ first second value, arena.const? lhs = some first ∧ arena.const? rhs = some second ∧
        op.eval? (arena.ty lhs) first second = some value ∧ later.const? id = some (ty.wrap value) ∧
        later.symbols[id]? = some ⟨.const (ty.wrap value), ty⟩ := by
  have found := symbol_of_intern stored
  rcases fold_binary arena op lhs rhs ty with same
    | ⟨first, second, value, left, right, computed, same⟩
  · rw [same] at found
    exact .inl ⟨by simp only [const?, term?, found, Option.map_some], found⟩
  · rw [same] at found
    exact .inr ⟨first, second, value, left, right,
      computed, by simp only [const?, term?, found, Option.map_some], found⟩

theorem isArithmetic_of_isLinear (linear : isLinear op = true) : op.isArithmetic = true := by
  cases op <;> simp_all [isLinear, BinaryOp.isArithmetic]

theorem resultTy_of_isLinear (linear : isLinear op = true) (ty : Ty) : op.resultTy ty = ty :=
  BinaryOp.resultTy_of_arithmetic (isArithmetic_of_isLinear linear) ty

theorem eval_operandTy (typed : op.isArithmetic = true → arena.ty lhs = ty) {first second : Nat} :
    op.eval? (arena.ty lhs) first second = op.eval? ty first second := by
  cases arithmetic : op.isArithmetic with
  | true => rw [typed arithmetic]
  | false => exact BinaryOp.eval_eq_of_not_arithmetic arithmetic _ _

section Operators

variable {value : Nat} (ordered : arena.Scoped)
  (stored : arena.intern (.binary op lhs rhs) (op.resultTy ty) = (id, later))
  (respects : later.Respects valuation numbers) (left : arena.Faithful numbers lhs)
  (right : arena.Faithful numbers rhs) (typed : op.isArithmetic = true → arena.ty lhs = ty)
  (computed : op.eval? ty (numbers lhs) (numbers rhs) = some value)

include ordered stored respects left typed computed

theorem value_of_binary : numbers id = value := by
  have same (first second : Nat) : op.eval? (arena.ty lhs) first second =
      op.eval? ty first second :=
    eval_operandTy typed
  have grown := extends_of_intern stored
  rcases symbol_of_binary stored with ⟨_, found⟩
    | ⟨first, second, other, leftKnown, rightKnown, folded, _, found⟩
  · have told := respects id _ found
    simp only [Term.value, grown.ty_eq left.inside, same, computed, Option.getD_some] at told
    exact told
  · have told := respects id _ found
    have before := respects.of_extends ordered grown
    rw [← value_of_const leftKnown before, ← value_of_const rightKnown before, same,
      computed] at folded
    obtain rfl := Option.some.inj folded
    simp only [Term.value, Ty.wrap_of_lt (BinaryOp.eval_lt computed)] at told
    exact told

include right

/-- An operator means what it computes, if it does not wrap around where its linear form says that
it does not. -/
theorem means_binary (integer : isLinear op = true → ∃ width, ty = .uint width)
    (fitting : isLinear op = true → ∀ ranged, later.linear? id = some ranged →
      ranged.form ≠ LinearForm.ofAtom id →
      later.const? id = none → op.Fits ty (numbers lhs) (numbers rhs)) :
    later.Means numbers id (op.resultTy ty) value := by
  have told := value_of_binary ordered stored respects left typed computed
  have grown := extends_of_intern stored
  have laterOrdered : later.Scoped := scoped_of_intern ordered stored (operands_lt_size left right)
  have small : numbers id ≤ (op.resultTy ty).maxValue := by
    rw [told, Ty.le_maxValue_iff]
    exact BinaryOp.eval_lt computed
  rcases symbol_of_binary stored with ⟨unknown, found⟩ | ⟨_, _, _, _, _, _, _, found⟩
  · refine ⟨told, ty_of_stored found, faithful_binary laterOrdered.ranked found small
      (left.extends ordered grown) (right.extends ordered grown) ?_ ?_⟩
    · intro linear ranged formed notAtom
      obtain ⟨width, rfl⟩ := integer linear
      refine BinaryOp.eval_of_fits ?_ (fitting linear ranged formed notAtom unknown)
        (told ▸ computed)
      cases op <;> simp_all [isLinear]
    · intro _ result other
      rw [grown.ty_eq left.inside, eval_operandTy typed, computed] at other
      exact told.trans (Option.some.inj other)
  · exact ⟨told, ty_of_stored found, faithful_const laterOrdered.ranked found small
      (respects id _ found)⟩

/-- The linear form of an operator has its exact value, unless the operator is an unknown. -/
theorem exact_of_linear (unknown : later.const? id = none) (linear : isLinear op = true)
    {ranged : RangedForm} (formed : later.linear? id = some ranged) :
    ∃ exact, ranged.Describes numbers exact ∧
      (op ≠ .sub ∧ ranged.form = LinearForm.ofAtom id ∨ exact = op.exact (numbers lhs)
        (numbers rhs)) := by
  have told := value_of_binary ordered stored respects left typed computed
  have grown := extends_of_intern stored
  have laterOrdered : later.Scoped := scoped_of_intern ordered stored (operands_lt_size left right)
  rcases symbol_of_binary stored with ⟨_, found⟩ | ⟨_, _, _, _, _, _, known, _⟩
  · have small : numbers id ≤ (later.ty id).maxValue := by
      rw [ty_of_stored found, told, Ty.le_maxValue_iff]
      exact BinaryOp.eval_lt computed
    rw [linear?_eq laterOrdered.ranked found] at formed
    simp only [linear, if_true, Option.bind_eq_bind, Option.bind_eq_some_iff] at formed
    obtain ⟨leftForm, leftFound, rightForm, rightFound, made⟩ := formed
    have leftDescribed := (left.extends ordered grown).linear _ leftFound
    have rightDescribed := (right.extends ordered grown).linear _ rightFound
    rcases linearArithmetic?_fitting linear leftDescribed rightDescribed made with ⟨rfl, rfl⟩
      | described
    · exact ⟨_, .atom (leftDescribed.within_append rightDescribed) small, .inl ⟨nofun, rfl⟩⟩
    · exact ⟨_, described, .inr rfl⟩
  · rw [known] at unknown
    simp at unknown

end Operators

theorem underflows_of_binary (ordered : arena.Scoped)
    (stored : arena.intern (.binary op lhs rhs) ty = (id, later)) (left : lhs < arena.symbols.size)
    (right : rhs < arena.symbols.size) :
    later.underflows id = (arena.underflows lhs || arena.underflows rhs) := by
  have grown := extends_of_intern stored
  have parts : ∀ part ∈ references (.binary op lhs rhs), part < arena.symbols.size := by
    intro part member
    simp only [references, List.mem_cons, List.not_mem_nil, or_false] at member
    rcases member with rfl | rfl
    · exact left
    · exact right
  rcases symbol_of_binary stored with ⟨_, found⟩
    | ⟨first, second, _, leftKnown, rightKnown, _, known, _⟩
  · rw [underflows_eq (scoped_of_intern ordered stored parts).ranked found]
    dsimp only
    rw [underflows_extends ordered grown left, underflows_extends ordered grown right]
  · rw [not_underflows_of_const known, not_underflows_of_const leftKnown,
      not_underflows_of_const rightKnown]
    rfl

theorem underflows_of_wrapped (ordered : arena.Scoped)
    (stored : arena.intern (.wrapped op lhs rhs) ty = (id, later))
    (left : lhs < arena.symbols.size) (right : rhs < arena.symbols.size) :
    later.underflows id = (op == .sub || arena.underflows lhs || arena.underflows rhs) := by
  have grown := extends_of_intern stored
  have parts : ∀ part ∈ references (.wrapped op lhs rhs), part < arena.symbols.size := by
    intro part member
    simp only [references, List.mem_cons, List.not_mem_nil, or_false] at member
    rcases member with rfl | rfl
    · exact left
    · exact right
  rw [underflows_eq (scoped_of_intern ordered stored parts).ranked (symbol_of_intern stored)]
  dsimp only [fold]
  rw [underflows_extends ordered grown left, underflows_extends ordered grown right]

theorem means_wrapped {width value first second : Nat} (ordered : arena.Scoped)
    (stored : arena.intern (.wrapped op lhs rhs) (.uint width) = (id, later))
    (respects : later.Respects valuation numbers)
    (left : arena.Means numbers lhs (.uint width) first)
    (right : arena.Means numbers rhs (.uint width) second) (linear : isLinear op = true)
    (wraps : ¬ op.Fits (.uint width) first second)
    (computed : op.eval? (.uint width) first second = some value) :
    later.Means numbers id (.uint width) value := by
  have grown := extends_of_intern stored
  have found := symbol_of_intern stored
  have told := respects id _ found
  obtain rfl := left.value
  obtain rfl := right.value
  have laterOrdered : later.Scoped :=
    scoped_of_intern ordered stored (operands_lt_size left.faithful right.faithful)
  have fits {operand : SymbolId}
      (means : arena.Means numbers operand (.uint width) (numbers operand)) :
      numbers operand < (Ty.uint width).bound := by
    rw [← Ty.le_maxValue_iff, ← means.typed]
    exact means.faithful.fits
  have same : numbers id = value := by
    simp only [fold, Term.value, grown.ty_eq left.faithful.inside, left.typed, computed,
      Option.getD_some] at told
    exact told
  have small : numbers id ≤ (Ty.uint width).maxValue := by
    rw [same, Ty.le_maxValue_iff, ← resultTy_of_isLinear linear (.uint width)]
    exact BinaryOp.eval_lt computed
  refine ⟨same, ty_of_stored found, faithful_wrapped laterOrdered.ranked found small
    (left.faithful.extends ordered grown) (right.faithful.extends ordered grown) ?_ ?_⟩
  · rintro rfl modulus known
    rw [same, modulus?_eq_bound known]
    exact BinaryOp.eval_add_of_not_fits (fits left) (fits right) wraps computed
  · rintro rfl modulus known
    rw [same, modulus?_eq_bound known]
    exact BinaryOp.eval_sub_of_not_fits (fits left) (fits right) wraps computed

end Arena

end Covenant
