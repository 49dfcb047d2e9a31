import Covenant.Proofs.Lowering.TypedBodies

/-!
What holds of all code that lowering gives: blocks and local variables that are used exist, values
are defined once and used only behind their definition, and fields, functions and events are used as
they are declared.
-/

namespace Covenant

/-- Whether an instruction uses a local variable that exists, and fields, functions and events as
they are declared. -/
def Instruction.Formed (decl : ContractDecl) (contract : Contract) (locals : List LocalVar) :
    Instruction → Prop
  | .loadLocal _ slot => slot < locals.length
  | .storeLocal slot _ => slot < locals.length
  | .loadField _ name key =>
    ∃ field, contract.field? name = some field ∧ key.isSome = field.ty.isMap
  | .storeField name key _ =>
    ∃ field, contract.field? name = some field ∧ key.isSome = field.ty.isMap
  | .call _ name args =>
    ∃ callee, (decl.functions.find? fun function => function.name.name == name) = some callee ∧
      args.length = callee.params.length
  | .emit name args =>
    ∃ event, (contract.events.find? fun event => event.name == name) = some event ∧
      args.length = event.params.length
  | _ => True

/-- Whether a function of a contract, which has been lowered from a declaration, is well formed. -/
structure Function.Formed (decl : ContractDecl) (contract : Contract) (function : Function) :
    Prop where
  entry : function.entry = 0
  ids : ∀ (id : BlockId) (block : BasicBlock), function.block? id = some block → block.id = id
  successors : ∀ block ∈ function.blocks, ∀ target ∈ block.terminator.node.successors,
    ∃ other, function.block? target = some other
  reads : ∀ block ∈ function.blocks, ReadsEarlier block.instructions
  ends : ∀ block ∈ function.blocks, ∀ value : ValueId, block.terminator.node.operand? = some value →
    value ∈ definedBy block.instructions
  once : (function.blocks.flatMap fun block => definedBy block.instructions).Nodup
  params : (function.params.map fun param => LocalVar.mk param.1 param.2) <+: function.locals
  instructions : ∀ block ∈ function.blocks, ∀ instruction ∈ block.instructions,
    instruction.node.Formed decl contract function.locals

namespace Lowering

variable {lines : LineTable} {decl : ContractDecl}

theorem signature_declarationsOf (name : String) : (declarationsOf lines decl).signature? name =
    (decl.functions.find? fun function => function.name.name == name).map fun function =>
      (signatureOf function).2 := by
  have listed := lookup_map (functionDecls decl) (fun function => function.name.name)
    (fun function => (signatureOf function).2) name
  exact listed.trans (by rw [functionDecls, find?_splitRepeated decl.functions (by simp)])

/-- Code that has types uses what is declared as it is declared. -/
theorem formed_of_typed (readable : decl.Readable) {instruction : Instruction}
    {locals : List LocalVar} {types : List Ty}
    (typed : instruction.Typed (declarationsOf lines decl) locals types) :
    instruction.Formed decl (contractOf lines decl).1 locals := by
  have code : (contractOf lines decl).1.Typed _ := contractOf_typed readable
  have declares {name : String} {ty : Ty} {key : Option ValueId}
      (known : (declarationsOf lines decl).field? name = some ty) (keyed : ty.KeyedBy types key) :
      ∃ field, (contractOf lines decl).1.field? name = some field ∧
        key.isSome = field.ty.isMap := by
    rw [code.fields] at known
    obtain ⟨field, found, rfl⟩ := Option.map_eq_some_iff.mp known
    exact ⟨field, found, keyed.isSome_eq⟩
  cases typed with
  | loadLocal found => exact (List.getElem?_eq_some_iff.mp found).1
  | storeLocal found => exact (List.getElem?_eq_some_iff.mp found).1
  | loadField known keyed => exact declares known keyed
  | storeField known keyed => exact declares known keyed
  | @call dest name args signature known passed =>
    rw [signature_declarationsOf] at known
    obtain ⟨callee, found, rfl⟩ := Option.map_eq_some_iff.mp known
    refine ⟨callee, found, passed.length_eq.trans ?_⟩
    simp [signatureOf]
  | emit known passed =>
    rw [code.events] at known
    obtain ⟨event, found, rfl⟩ := Option.map_eq_some_iff.mp known
    exact ⟨event, found, passed.length_eq.trans (List.length_map ..)⟩
  | _ => trivial

theorem functions_formed (readable : decl.Readable) :
    ∀ function ∈ (contractOf lines decl).1.functions,
      function.Formed decl (contractOf lines decl).1 := by
  intro function member
  obtain ⟨types, typed⟩ := (contractOf_typed readable).functions function member
  exact {
    entry := typed.entry.1
    ids := typed.ids
    successors := fun block listed target leads =>
      ⟨_, List.getElem?_eq_getElem ((typed.stands block listed).successors target leads)⟩
    reads := typed.reads
    ends := fun block listed => (typed.stands block listed).reads
    once := typed.once
    params := typed.params
    instructions := fun block listed instruction there =>
      formed_of_typed readable (typed.instructions block listed instruction there) }

theorem failed_of_missing {name : String} {signature : Signature}
    (known : (declarationsOf lines decl).signature? name = some signature)
    (missing : (contractOf lines decl).1.function? name = none) :
    ∃ header body, (header, body) ∈ bodiesOf decl ∧ header.name = name ∧ ∃ events problem,
      (functionOf (scopeOf lines decl) events header body).1 = .error problem ∧
        problem ∈ (contractOf lines decl).2 := by
  rw [signature_declarationsOf] at known
  obtain ⟨source, found, _⟩ := Option.map_eq_some_iff.mp known
  have named : source.name.name = name := by simpa using List.find?_some found
  rw [← find?_splitRepeated decl.functions (by simp : name ∉ [])] at found
  have listed : source ∈ functionDecls decl := List.mem_of_find?_eq_some found
  have member : (ContractDecl.functionHeader source, source.body) ∈ bodiesOf decl :=
    List.mem_append.mpr (.inr (List.mem_map.mpr ⟨source, listed, rfl⟩))
  refine ⟨ContractDecl.functionHeader source, source.body, member, named, ?_⟩
  rcases functionsOf_cases (scopeOf lines decl) (declaredEvents lines decl).2.1 member with
    ⟨function, there, same⟩ | ⟨events, problem, failed, reported⟩
  · have apart := List.find?_eq_none.mp missing function there
    exact absurd (same.trans named) (by simpa using apart)
  · exact ⟨events, problem, failed, List.mem_append.mpr (.inr reported)⟩

end Lowering

end Covenant
