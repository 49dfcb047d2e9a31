import Covenant.Proofs.Run.Lockstep
import Covenant.Proofs.Run.Outermost
import Covenant.Proofs.Scan.Summaries

/-!
The search for writes after calls out of the contract misses nothing that lies at different places
of a function. A function that it calls is one place to it: what a single call of a function does
first and what it does later are not told apart.
-/

namespace Covenant

/-! Places in one function. -/

namespace Post

def position (post : Post) : Finding.Position := ⟨post.block.id, post.index⟩

variable {contract : Contract} {declared : Declarations} {post following : Post}

/-- Code goes through the places of a function in an order that the search for writes after calls
knows. -/
theorem Stands.precedes (stands : post.Stands contract declared)
    (path : Relation.ReflTransGen Leads post following) :
    following = post ∨
      post.position.precedes (FlowGraph.ofFunction post.function) following.position = true := by
  induction path with
  | refl => exact .inl rfl
  | @tail middle final earlier leads before =>
    obtain ⟨there, same⟩ := stands.along earlier
    refine .inr ?_
    obtain ⟨types, typed⟩ := there.function
    unfold Finding.Position.precedes at before ⊢
    simp only [position, Bool.or_eq_true, Bool.and_eq_true, beq_iff_eq,
      List.contains_iff_mem] at before ⊢
    cases leads with
    | next =>
      rcases before with rfl | ⟨block, earlier⟩ | reached
      · exact .inl ⟨rfl, decide_eq_true (Nat.lt_succ_self _)⟩
      · exact .inl ⟨block, decide_eq_true (Nat.lt_succ_of_lt (of_decide_eq_true earlier))⟩
      · exact .inr reached
    | @goto target block edge found =>
      have low := (typed.stands _ (List.mem_of_getElem? there.block)).successors target edge
      have leads := FlowGraph.mem_successors.mpr ⟨_, there.block, edge, low⟩
      rw [← typed.ids target block found] at leads
      rw [same] at leads
      have root (here : middle.block.id = post.block.id) :
          block.id ∈ (FlowGraph.ofFunction post.function).reachableFrom post.block.id :=
        FlowGraph.mem_reachableFrom.mpr (.single (here ▸ leads))
      rcases before with rfl | ⟨here, _⟩ | reached
      · exact .inr (root rfl)
      · exact .inr (root here.symm)
      · exact .inr
          (FlowGraph.mem_reachableFrom.mpr ((FlowGraph.mem_reachableFrom.mp reached).tail leads))

end Post

section Reports

variable {contract : Contract} {declared : Declarations} {result : Option Ty}
  {summaries : Summaries} {function : Function} {setting : Setting} {state : Running}

namespace Post

def effect (summaries : Summaries) (contract : Contract) (post : Post) : Effect :=
  match post.instruction? with
  | some instruction => Finding.effectOf summaries contract instruction.node
  | none => Effect.none

end Post

theorem Running.Runs.outermost_has {instruction : Instruction} (runs : state.Runs instruction)
    (typed : state.Typed False contract declared result) (linked : state.Linked)
    (summarized : contract.Summarized summaries) {has : Effect → Bool}
    (additive : Effect.Additive has)
    (own : has (state.frame.function.effectAt state.frame.block.id instruction) = true)
    (direct : has (Finding.effectOf summaries contract instruction) = true) :
    has (state.outermost.effect summaries contract) = true := by
  rcases runs.at_outermost typed linked summarized additive own with
    ⟨_, _, here⟩ | ⟨_, _, _, _, _, calls, _, found, holds⟩
  · simp only [Post.effect, here]
    exact direct
  · simp only [Post.effect, calls, Finding.effectOf, found]
    exact holds

namespace Finding

theorem mem_effects {post : Post} (stands : post.Stands contract declared)
    {instruction : Located Instruction} (found : post.instruction? = some instruction) :
    (post.position, post.effect summaries contract) ∈
      (reachableInstructions post.function).map fun (block, index, instruction) =>
        ((⟨block, index⟩ : Position), effectOf summaries contract instruction.node) :=
  List.mem_map.mpr
    ⟨_, mem_reachableInstructions stands found, by simp only [Post.effect, found]; rfl⟩

/-- A field that is read at or before a place of a call, and written at another place behind it, is
found. -/
theorem staleField?_isSome {before during after : Post}
    (plain : before.function.hasDecorator protectedDecorator = false)
    (unlocked : lockStores contract before.function = [])
    (stands : before.Stands contract declared)
    (first : Relation.ReflTransGen Post.Leads before during)
    (later : Relation.ReflTransGen Post.Leads during after) (apart : after ≠ during)
    {field : String} (reads : (before.effect summaries contract).reads.contains field = true)
    (calls : (during.effect summaries contract).externalCalls = true)
    (writes : (after.effect summaries contract).writes.contains field = true) :
    (staleField? summaries contract before.function).isSome = true := by
  obtain ⟨there, same⟩ := stands.along first
  obtain ⟨behind, also⟩ := there.along later
  have earlier := stands.precedes first
  have follows := (there.precedes later).resolve_left apart
  have known {post : Post} (stands : post.Stands contract declared)
      (same : post.function = before.function)
      (does : post.effect summaries contract ≠ Effect.none) :
      (post.position, post.effect summaries contract) ∈
        (reachableInstructions before.function).map fun (block, index, instruction) =>
          ((⟨block, index⟩ : Position), effectOf summaries contract instruction.node) := by
    cases found : post.instruction? with
    | none => simp [Post.effect, found] at does
    | some instruction => exact same ▸ mem_effects stands found
  have readPlace := known stands rfl fun nothing => by simp [nothing, Effect.none] at reads
  have callPlace := known there same fun nothing => by simp [nothing, Effect.none] at calls
  have writePlace := known behind (also.trans same) fun nothing => by
    simp [nothing, Effect.none] at writes
  have distinct : after.position ≠ during.position := by
    intro equal
    obtain ⟨block, index⟩ := Position.mk.inj equal
    have blocks := behind.block
    rw [also, block, there.block] at blocks
    obtain ⟨_, _, _⟩ := after
    obtain ⟨_, _, _⟩ := during
    simp_all
  unfold staleField?
  rw [plain]
  simp only [Bool.false_eq_true, if_false, unlocked, List.any_nil, Bool.not_false, Bool.and_true]
  generalize (reachableInstructions before.function).map (fun (block, index, instruction) =>
    ((⟨block, index⟩ : Position), effectOf summaries contract instruction.node)) = effects at *
  rw [List.findSome?_isSome_iff]
  refine ⟨during.position, List.mem_filterMap.mpr ⟨_, callPlace, by simp only [calls, if_true]⟩, ?_⟩
  unfold staleAfter?
  rw [List.find?_isSome]
  refine ⟨field, List.mem_flatMap.mpr ⟨_, writePlace, ?_⟩, ?_⟩
  · rw [same] at follows
    simpa [distinct, follows] using writes
  · simp only [List.contains_iff_mem, readBefore]
    refine List.mem_flatMap.mpr ⟨_, readPlace, ?_⟩
    rcases earlier with rfl | earlier
    · simpa using reads
    · simpa [earlier] using reads

theorem exists_mem_reentrancy {set : ContractSet} (known : (contract, function) ∈ openFunctions set)
    (stale : (staleField? summaries contract function).isSome = true) :
    ∃ issue ∈ (reentrancy summaries set).issues, issue.id = "reentrancy" ∧
      issue.function = some function.name ∧
      issue.location = some function.location := by
  obtain ⟨field, stale⟩ := Option.isSome_iff_exists.mp stale
  exact ⟨_, List.mem_filterMap.mpr ⟨_, known, Option.map_eq_some_iff.mpr ⟨field, stale, rfl⟩⟩,
    rfl, rfl, rfl⟩

end Finding

end Reports

namespace ContractSet

/-- A function that anyone can call is reported if it neither has a lock nor declares that it has
one, and some run of it reads a field, later calls out of the contract, and later still writes the
field, each by itself or in a function that it calls, unless the call and the write happen at one
and the same place of it, which then is a call of a function. -/
theorem reentrancy_reported {text : String} {budget : Nat} {issues : List Issue}
    (completes : Check.reentrancy.Completes (ofText text) budget issues) {contract : Contract}
    (member : contract ∈ (ofText text).contracts) {name : String} {function : Function}
    (found : contract.function? name = some function) (everyone : function.kind = .everyone)
    (plain : function.hasDecorator Finding.protectedDecorator = false)
    (unlocked : Finding.lockStores contract function = []) {inputs : Inputs}
    (count : function.params.length = inputs.args.length) {frame : Frame}
    (framed : function.frame (function.entryCells inputs.args) = .ok frame) {limits : RunLimits}
    {reading calling writing : Running}
    (start : Running.Reaches (inputs.setting contract limits)
      ⟨frame, [], Effects.start inputs.storage⟩ reading)
    (first : Running.Reaches (inputs.setting contract limits) reading calling)
    (later : Running.Reaches (inputs.setting contract limits) calling writing) {field : String}
    {dest : ValueId} {key : Option ValueId} (reads : reading.Runs (.loadField dest field key))
    {success : ValueId} {kind : ExternalKind} {target amount : ValueId}
    (calls : calling.Runs (.externalCall success kind target amount)) {other : Option ValueId}
    {value : ValueId} (writes : writing.Runs (.storeField field other value))
    (apart : writing.outermost ≠ calling.outermost) :
    ∃ issue ∈ issues, issue.id = "reentrancy" ∧ issue.function = some function.name ∧
      issue.location = some function.location := by
  obtain ⟨declared, code⟩ := typed_of_ofText member
  have code : (inputs.setting contract limits).contract.Typed declared := code
  have typed := code.of_frame found count framed inputs.storage
  obtain ⟨listed, _⟩ := Contract.mem_of_function? found
  have summarized := summarized member
  have linked := Running.linked_start frame (Effects.start inputs.storage)
  have startTyped := start.typed code False.elim typed
  have startLinked := start.linked code False.elim typed linked
  have callTyped := first.typed code False.elim startTyped
  have callLinked := first.linked code False.elim startTyped startLinked
  have writeTyped := later.typed code False.elim callTyped
  have writeLinked := later.linked code False.elim callTyped callLinked
  have additive (part : Effect → Names) (empty : part .none = [])
      (joins : ∀ left right, part (left.join right) = (part left).join (part right)) :=
    Effect.additive_contains part empty joins field
  have readsThere := reads.outermost_has startTyped startLinked summarized
    (additive Effect.reads rfl fun _ _ => rfl) (by simp [Function.effectAt])
    (by simp [Finding.effectOf])
  have callsThere :=
    calls.outermost_has callTyped callLinked summarized Effect.additive_externalCalls rfl rfl
  have writesThere := writes.outermost_has writeTyped writeLinked summarized
    (additive Effect.writes rfl fun _ _ => rfl) (by simp [Function.effectAt])
    (by simp [Finding.effectOf])
  -- the place in the first function is where the function starts, and only moves on from there
  have stands := typed.stands _
    (List.getLast_mem (Running.posts_ne_nil ⟨frame, [], Effects.start inputs.storage⟩))
  obtain ⟨there, same⟩ := stands.along (start.outermost code typed linked)
  have outer : reading.outermost.function = function := same.trans (Function.frame_eq_ok framed).1
  have stale := Finding.staleField?_isSome (by rw [outer]; exact plain)
    (by rw [outer]; exact unlocked) there (first.outermost code startTyped startLinked)
    (later.outermost code callTyped callLinked) apart readsThere callsThere writesThere
  rw [completes.issues_eq]
  exact Finding.exists_mem_reentrancy (Finding.mem_openFunctions member listed everyone)
    (outer ▸ stale)

/-- A function that sends what it has read from a field before it clears the field is reported. -/
theorem reentrancy_reported_of_transfer :
    let text := "contract A \x7b a: u64 f() \x7b transfer(msg.sender, self.a) self.a = 0 \x7d \x7d"
    ∃ issues, Check.reentrancy.Completes (ofText text) Pass.standardBudget issues ∧
      ∃ contract ∈ (ofText text).contracts, ∃ function, contract.function? "f" = some function ∧
        ∃ issue ∈ issues, issue.id = "reentrancy" ∧ issue.function = some function.name ∧
          issue.location = some function.location := by
  intro text
  have cheap : (Summaries.ofSet (ofText text)).2 ≤ Pass.standardBudget ∧
      (Finding.reentrancy (Summaries.ofSet (ofText text)).1 (ofText text)).cost ≤
        Pass.standardBudget := by
    decide +kernel
  have completes := Check.completes .reentrancy nofun cheap.1 cheap.2
  let steps (contract : Contract) (function : Function) : Option (Running × Running × Running) := do
    let frame ← (function.frame (function.entryCells Inputs.empty.args)).toOption
    let reading ← Running.follow (Inputs.empty.setting contract .standard) 1
      ⟨frame, [], Effects.start []⟩
    let calling ← Running.follow (Inputs.empty.setting contract .standard) 1 reading.2
    let writing ← Running.follow (Inputs.empty.setting contract .standard) 2 calling.2
    return (reading.2, calling.2, writing.2)
  let runs (state : Running) := state.frame.pending.head?.map Located.node
  have checked : ∃ contract ∈ (ofText text).contracts, ∃ function ∈ contract.function? "f",
      (function.kind = .everyone ∧ function.hasDecorator Finding.protectedDecorator = false ∧
        Finding.lockStores contract function = [] ∧ function.params.length =
          Inputs.empty.args.length) ∧
      ∃ states ∈ steps contract function, runs states.1 = some (.loadField 1 "a" none) ∧
        runs states.2.1 = some (.externalCall 2 .transfer 0 1) ∧
        runs states.2.2 = some (.storeField "a" none 3) ∧
        states.2.2.outermost.index ≠ states.2.1.outermost.index := by
    decide +kernel
  obtain ⟨contract, member, function, found, ⟨everyone, plain, unlocked, count⟩,
    ⟨reading, calling, writing⟩, walked, reads, calls, writes, apart⟩ := checked
  simp only [steps, Option.mem_def, bind, Option.bind_eq_some_iff, pure, Option.some.injEq,
    Prod.mk.injEq] at walked
  obtain ⟨frame, framed, ⟨_, _⟩, one, ⟨_, _⟩, two, ⟨_, _⟩, three, rfl, rfl, rfl⟩ := walked
  have framed := Running.toOption_eq_some.mp framed
  have reported := reentrancy_reported completes member found everyone plain unlocked count framed
    (Running.shows_of_follow one).reaches (Running.shows_of_follow two).reaches
    (Running.shows_of_follow three).reaches (Running.runs_of_head? reads)
    (Running.runs_of_head? calls) (Running.runs_of_head? writes) fun same =>
    apart (congrArg Post.index same)
  exact ⟨_, completes, contract, member, function, found, reported⟩

end ContractSet

end Covenant
