import Covenant.Proofs.Lists
import Covenant.Proofs.Lowering.Steps
import Covenant.Proofs.Syntax.Readable

/-!
What a lowered contract takes over from its declaration. Fields and functions are found by their
names, no two of them share one, and only the handler that runs at deployment is called `init`.
-/

namespace Covenant

def Ty.Sized : Ty → Prop
  | uint width => 0 < width ∧ width ≤ 128
  | bool => True
  | address => True
  | map key value => key.Sized ∧ value.Sized

def Ty.content : Ty → Ty
  | map _ value => value
  | ty => ty

theorem TypeExpr.Sized.ofExpr {ty : TypeExpr} (sized : ty.Sized) : (Ty.ofExpr ty).Sized := by
  induction ty with
  | uint span width => exact sized
  | bool span => trivial
  | address span => trivial
  | map span key value keyIh valueIh => exact ⟨keyIh sized.1, valueIh sized.2⟩

theorem Ty.Sized.content {ty : Ty} (sized : ty.Sized) : ty.content.Sized := by
  cases ty with
  | map key value => exact sized.2
  | _ => exact sized

structure Contract.WellFormed (contract : Contract) : Prop where
  fieldNames : (contract.fields.map Field.name).Nodup
  fieldTypes : ∀ field ∈ contract.fields, field.ty.Sized
  functionNames : (contract.functions.map Function.name).Nodup
  paramTypes : ∀ function ∈ contract.functions, ∀ param ∈ function.params, param.2.Sized
  initName : ∀ function ∈ contract.functions, function.kind = .init ↔ function.name = "init"

def ContractSet.ofText (text : String) : ContractSet :=
  ((SyntaxTree.read text).tree.lower (LineTable.ofText text)).set

namespace Lowering

section SplitRepeated

variable {α : Type} {name : α → String}

theorem mem_splitRepeated {known : List String} {items : List α} {item : α}
    (member : item ∈ (splitRepeated name known items).1) : item ∈ items ∧ name item ∉ known := by
  induction items generalizing known with
  | nil => simp [splitRepeated] at member
  | cons first rest ih =>
    simp only [splitRepeated, List.contains_eq_mem, decide_eq_true_eq] at member
    split at member
    · have found := ih member
      exact ⟨List.mem_cons_of_mem _ found.1, found.2⟩
    · rename_i fresh
      rcases List.mem_cons.mp member with rfl | later
      · exact ⟨List.mem_cons_self, fresh⟩
      · have found := ih later
        exact ⟨List.mem_cons_of_mem _ found.1, fun taken => found.2 (List.mem_cons_of_mem _ taken)⟩

theorem splitRepeated_nodup (known : List String) (items : List α) :
    ((splitRepeated name known items).1.map name).Nodup := by
  induction items generalizing known with
  | nil => simp [splitRepeated]
  | cons first rest ih =>
    simp only [splitRepeated]
    split
    · exact ih known
    · simp only [List.map_cons, List.nodup_cons]
      refine ⟨?_, ih (name first :: known)⟩
      intro repeated
      obtain ⟨item, member, same⟩ := List.mem_map.mp repeated
      exact (mem_splitRepeated member).2 (by rw [same]; exact List.mem_cons_self)

/-- Of the items with one name, the first one is kept. -/
theorem find?_splitRepeated {known : List String} (items : List α) {wanted : String}
    (fresh : wanted ∉ known) :
    ((splitRepeated name known items).1.find? fun item => name item == wanted) =
      items.find? fun item => name item == wanted := by
  induction items generalizing known with
  | nil => simp [splitRepeated]
  | cons first rest ih =>
    simp only [splitRepeated, List.contains_eq_mem, decide_eq_true_eq]
    split
    · rename_i taken
      have other : (name first == wanted) = false := by
        rw [beq_eq_false_iff_ne]
        rintro rfl
        exact fresh taken
      simp only [List.find?_cons, other]
      exact ih fresh
    · by_cases same : name first = wanted
      · simp [same]
      · simp only [List.find?_cons, beq_eq_false_iff_ne.mpr same]
        refine ih ?_
        intro taken
        rcases List.mem_cons.mp taken with rfl | older
        · exact same rfl
        · exact fresh older

end SplitRepeated

end Lowering

namespace Build

theorem params_eq_ok {decls : List Param} {builder final : Builder} {result : List (String × Ty)}
    (built : params decls builder = .ok result final) :
    result = decls.map fun param => (param.name.name, Ty.ofExpr param.ty) := by
  induction decls generalizing builder result with
  | nil =>
    simp only [params, pure_eq_ok] at built
    simp [← built.1]
  | cons param rest ih =>
    simp only [params, ite_eq_ok, fail_eq_ok, and_false, false_or, bind_eq_ok, pure_eq_ok] at built
    obtain ⟨_, _, _, _, _, _, _, _, others, _, later, rfl, rfl⟩ := built
    rw [ih later, List.map_cons]

theorem function_eq_ok {header : Header} {body : Block} {builder final : Builder}
    {result : Function} (built : function header body builder = .ok result final) :
    ∃ entered ended : Builder,
      params header.params builder =
        .ok (header.params.map fun param => (param.name.name, Ty.ofExpr param.ty)) entered ∧
      block body entered = .ok () ended ∧
      final = ended.terminate (.ret none) ⟨body.span.stop - 1, body.span.stop⟩ ∧
      result =
        { name := header.name
          kind := header.kind
          params := header.params.map fun param => (param.name.name, Ty.ofExpr param.ty)
          returns := final.returns
          decorators := header.annotations.map Ident.name
          locals := final.locals
          entry := 0
          blocks := closeBlocks (final.scope.lines.location body.span.stop) final.blocks
          location := final.scope.lines.location header.span.start } := by
  simp only [function, bind_eq_ok, get_eq_ok, ite_eq_ok, fail_eq_ok, and_false, false_or,
    pure_eq_ok, terminate_eq_ok] at built
  obtain ⟨_, _, ⟨rfl, rfl⟩, _, found, entered, read, _, ended, inside, _, _, ⟨rfl, rfl⟩, _, _,
    ⟨rfl, rfl⟩, _, _, rfl, _, _, ⟨rfl, rfl⟩, _, rfl, rfl⟩ := built
  have same := params_eq_ok read
  subst same
  exact ⟨entered, _, read, inside, rfl, rfl⟩

end Build

namespace Lowering

theorem mem_functionsOf {scope : ContractScope} {events : EventScope}
    {bodies : List (Header × Block)} {function : Function}
    (member : function ∈ (functionsOf scope events bodies).1) :
    ∃ header body known final, (header, body) ∈ bodies ∧
      Build.function header body
        (Builder.start scope header.name (header.returns.map Ty.ofExpr) known) =
        .ok function final := by
  induction bodies generalizing events with
  | nil => simp [functionsOf] at member
  | cons entry rest ih =>
    obtain ⟨header, body⟩ := entry
    simp only [functionsOf, functionOf] at member
    cases built : Build.function header body
        (Builder.start scope header.name (header.returns.map Ty.ofExpr) events) with
    | ok result final =>
      simp only [built] at member
      rcases List.mem_cons.mp member with rfl | later
      · exact ⟨header, body, events, final, List.mem_cons_self, built⟩
      · obtain ⟨other, text, known, ended, listed, done⟩ := ih later
        exact ⟨other, text, known, ended, List.mem_cons_of_mem _ listed, done⟩
    | error problem final =>
      simp only [built] at member
      obtain ⟨other, text, known, ended, listed, done⟩ := ih member
      exact ⟨other, text, known, ended, List.mem_cons_of_mem _ listed, done⟩

theorem functionsOf_names (scope : ContractScope) (events : EventScope)
    (bodies : List (Header × Block)) :
    ((functionsOf scope events bodies).1.map Function.name).Sublist
    (bodies.map fun entry => entry.1.name) := by
  induction bodies generalizing events with
  | nil => simp [functionsOf]
  | cons entry rest ih =>
    obtain ⟨header, body⟩ := entry
    simp only [functionsOf, functionOf]
    cases built : Build.function header body
        (Builder.start scope header.name (header.returns.map Ty.ofExpr) events) with
    | ok result final =>
      obtain ⟨_, _, _, _, _, same⟩ := Build.function_eq_ok built
      simp only [List.map_cons, same]
      exact (ih final.events).cons_cons header.name
    | error problem final =>
      simp only [List.map_cons]
      exact (ih final.events).cons header.name

def functionDecls (decl : ContractDecl) : List FunctionDecl :=
  (splitRepeated (fun function => function.name.name) [] decl.functions).1

def fieldsOf (lines : LineTable) (decl : ContractDecl) : List Field :=
  (splitRepeated (fun field => field.name.name) [] decl.fields).1.zipIdx.map fun (field, slot) =>
    fieldOf lines field slot

def scopeOf (lines : LineTable) (decl : ContractDecl) : ContractScope :=
  { name := decl.name.name
    lines
    fields := (fieldsOf lines decl).map fun field => (field.name, field.ty)
    signatures := (functionDecls decl).map signatureOf }

def bodiesOf (decl : ContractDecl) : List (Header × Block) :=
  (decl.inits.head?.map fun handler => (ContractDecl.initHeader handler, handler.body)).toList ++
    (functionDecls decl).map fun function => (ContractDecl.functionHeader function, function.body)

/-- The events that a contract has declared before any function is lowered. -/
def declaredEvents (lines : LineTable) (decl : ContractDecl) :
    List Event × EventScope × List SemanticError :=
  eventsOf (scopeOf lines decl) ⟨[], []⟩ decl.events

def loweredBodies (lines : LineTable) (decl : ContractDecl) :
    List Function × EventScope × List SemanticError :=
  functionsOf (scopeOf lines decl) (declaredEvents lines decl).2.1 (bodiesOf decl)

section Contract

variable {lines : LineTable} {decl : ContractDecl}

theorem contractOf_fields : (contractOf lines decl).1.fields = fieldsOf lines decl := rfl

theorem contractOf_functions :
    (contractOf lines decl).1.functions = (loweredBodies lines decl).1 := rfl

theorem contractOf_events : (contractOf lines decl).1.events =
    (declaredEvents lines decl).1 ++ (loweredBodies lines decl).2.1.implied := rfl

theorem mem_bodiesOf {header : Header} {body : Block} (member : (header, body) ∈ bodiesOf decl) :
    (∃ handler ∈ decl.inits, header = ContractDecl.initHeader handler ∧ body = handler.body) ∨
      ∃ function ∈ decl.functions, header = ContractDecl.functionHeader function ∧
      body = function.body := by
  rcases List.mem_append.mp member with first | later
  · left
    rw [Option.mem_toList, Option.map_eq_some_iff] at first
    obtain ⟨handler, found, same⟩ := first
    obtain ⟨rfl, rfl⟩ := Prod.mk.inj same
    exact ⟨handler, List.mem_of_head? found, rfl, rfl⟩
  · right
    obtain ⟨function, declared, same⟩ := List.mem_map.mp later
    obtain ⟨rfl, rfl⟩ := Prod.mk.inj same
    exact ⟨function, (mem_splitRepeated declared).1, rfl, rfl⟩

theorem bodiesOf_names (readable : decl.Readable) :
    ((bodiesOf decl).map fun entry => entry.1.name).Nodup := by
  have declared : ((functionDecls decl).map fun function => function.name.name).Nodup :=
    splitRepeated_nodup _ _
  have free : "init" ∉ (functionDecls decl).map fun function => function.name.name := by
    intro taken
    obtain ⟨function, member, same⟩ := List.mem_map.mp taken
    exact readable.name_ne_init (mem_splitRepeated member).1 same
  have names : (bodiesOf decl).map (fun entry => entry.1.name) =
      ((decl.inits.head?.map fun _ => "init").toList ++
        (functionDecls decl).map fun function => function.name.name) := by
    unfold bodiesOf
    cases decl.inits.head? <;> simp [ContractDecl.initHeader, ContractDecl.functionHeader]
  rw [names]
  cases decl.inits.head? with
  | none => simpa using declared
  | some handler => simpa using ⟨by simpa using free, declared⟩

theorem contractOf_wellFormed (readable : decl.Readable) :
    (contractOf lines decl).1.WellFormed where
  fieldNames := by
    have same : (fieldsOf lines decl).map Field.name =
        (splitRepeated (fun field => field.name.name) [] decl.fields).1.map fun field =>
          field.name.name := by
      conv =>
        rhs; rw [← List.zipIdx_map_fst 0
          (splitRepeated (fun field => field.name.name) [] decl.fields).1]
      simp only [fieldsOf, List.map_map]
      rfl
    rw [contractOf_fields, same]
    exact splitRepeated_nodup _ _
  fieldTypes := by
    intro field member
    obtain ⟨⟨written, slot⟩, listed, rfl⟩ := List.mem_map.mp member
    have declared := (mem_splitRepeated (List.fst_mem_of_mem_zipIdx listed)).1
    exact (readable.fields written declared).ofExpr
  functionNames := (functionsOf_names _ _ _).nodup (bodiesOf_names readable)
  paramTypes := by
    intro function member param listed
    obtain ⟨header, body, known, final, declared, built⟩ := mem_functionsOf member
    obtain ⟨_, _, _, _, _, rfl⟩ := Build.function_eq_ok built
    obtain ⟨written, inside, rfl⟩ := List.mem_map.mp listed
    rcases mem_bodiesOf declared with ⟨handler, found, rfl, rfl⟩ | ⟨source, found, rfl, rfl⟩
    · exact (readable.inits handler found written inside).ofExpr
    · exact (readable.params source found written inside).ofExpr
  initName := by
    intro function member
    obtain ⟨header, body, known, final, declared, built⟩ := mem_functionsOf member
    obtain ⟨_, _, _, _, _, rfl⟩ := Build.function_eq_ok built
    rcases mem_bodiesOf declared with ⟨handler, found, rfl, rfl⟩ | ⟨source, found, rfl, rfl⟩
    · simp [ContractDecl.initHeader]
    · have named : source.name.name ≠ "init" := readable.name_ne_init found
      cases visible : source.visibility <;> simp [ContractDecl.functionHeader, visible, named]

end Contract

theorem mem_contractsOf {lines : LineTable} {taken : List String} {decls : List ContractDecl}
    {contract : Contract} (member : contract ∈ (contractsOf lines taken decls).1) :
    ∃ decl ∈ decls, decl.name.name ∉ taken ∧ contract = (contractOf lines decl).1 := by
  induction decls generalizing taken with
  | nil => simp [contractsOf] at member
  | cons decl rest ih =>
    simp only [contractsOf, List.contains_eq_mem, decide_eq_true_eq] at member
    split at member
    · obtain ⟨other, listed, fresh, same⟩ := ih member
      exact ⟨other, List.mem_cons_of_mem _ listed, fresh, same⟩
    · rename_i free
      rcases List.mem_cons.mp member with rfl | later
      · exact ⟨decl, List.mem_cons_self, free, rfl⟩
      · obtain ⟨other, listed, fresh, same⟩ := ih later
        exact ⟨other, List.mem_cons_of_mem _ listed, fun known =>
          fresh (List.mem_cons_of_mem _ known), same⟩

theorem contractsOf_names (lines : LineTable) (taken : List String) (decls : List ContractDecl) :
    ((contractsOf lines taken decls).1.map Contract.name).Nodup := by
  induction decls generalizing taken with
  | nil => simp [contractsOf]
  | cons decl rest ih =>
    simp only [contractsOf]
    split
    · exact ih taken
    · simp only [List.map_cons, List.nodup_cons]
      refine ⟨?_, ih (decl.name.name :: taken)⟩
      intro repeated
      obtain ⟨contract, member, same⟩ := List.mem_map.mp repeated
      obtain ⟨other, _, fresh, rfl⟩ := mem_contractsOf member
      have named : other.name.name = decl.name.name := same
      exact fresh (by rw [named]; exact List.mem_cons_self)

end Lowering

namespace ContractSet

theorem wellFormed_of_ofText {text : String} {contract : Contract}
    (member : contract ∈ (ofText text).contracts) :
    contract.WellFormed := by
  obtain ⟨decl, listed, _, rfl⟩ := Lowering.mem_contractsOf member
  exact Lowering.contractOf_wellFormed (SyntaxTree.readable_of_read listed)

theorem ofText_names (text : String) : ((ofText text).contracts.map Contract.name).Nodup :=
  Lowering.contractsOf_names _ _ _

theorem mem_of_contract? {set : ContractSet} {name : String} {contract : Contract}
    (found : set.contract? name = some contract) :
    contract ∈ set.contracts ∧ contract.name = name := by
  refine ⟨List.mem_of_find?_eq_some found, ?_⟩
  simpa using List.find?_some found

end ContractSet

namespace Contract

variable {contract : Contract}

theorem WellFormed.function? (formed : contract.WellFormed) {function : Function}
    (member : function ∈ contract.functions) : contract.function? function.name = some function :=
  find?_eq_some_of_nodup formed.functionNames member

theorem WellFormed.field? (formed : contract.WellFormed) {field : Field}
    (member : field ∈ contract.fields) :
    contract.field? field.name = some field :=
  find?_eq_some_of_nodup formed.fieldNames member

theorem mem_of_function? {name : String} {function : Function}
    (found : contract.function? name = some function) :
    function ∈ contract.functions ∧ function.name = name := by
  refine ⟨List.mem_of_find?_eq_some found, ?_⟩
  simpa using List.find?_some found

theorem mem_of_field? {name : String} {field : Field} (found : contract.field? name = some field) :
    field ∈ contract.fields ∧ field.name = name := by
  refine ⟨List.mem_of_find?_eq_some found, ?_⟩
  simpa using List.find?_some found

end Contract

end Covenant
