import Covenant.Proofs.Run.Lockstep
import Covenant.Proofs.Scan.SenderChecks

/-!
What it means that no write that anyone can cause is found in a function: a run of the function that
succeeds and writes something shared has checked the sender. As long as no check is passed, no call
stands behind a check, so no function that always checks can return; and what a function writes
without being behind a check is found.
-/

namespace Covenant

theorem Checkpoint.covers_iff {point : Checkpoint} {graph : FlowGraph} {block : BlockId}
    {index : Nat} :
    point.covers graph block index = true ↔
      point.block = block ∧ (∀ behind, point.behind = some behind → behind < index) ∨
        point.block ≠ block ∧ graph.dominates point.block block = true := by
  unfold covers
  by_cases same : point.block = block
  · cases point.behind <;> simp [same]
  · simp [same]

namespace Post

def Covered (contract : Contract) (calleeChecks : String → Bool) (post : Post) : Prop :=
  ∃ point, contract.Checks post.function calleeChecks point ∧
    point.covers (FlowGraph.ofFunction post.function) post.block.id post.index = true

variable {contract : Contract} {declared : Declarations} {calleeChecks : String → Bool}
  {post : Post} {block : BasicBlock}

theorem Stands.block_eq (stands : post.Stands contract declared)
    (member : block ∈ post.function.blocks) (same : block.id = post.block.id) :
    block = post.block := by
  obtain ⟨types, typed⟩ := stands.function
  obtain ⟨id, found⟩ := List.mem_iff_getElem?.mp member
  have there : post.function.block? block.id = some block := by
    rw [typed.ids id block found]
    exact found
  rw [same, stands.block] at there
  exact (Option.some.inj there).symm

theorem Stands.covered_of_next (stands : post.Stands contract declared)
    (covered : post.next.Covered contract calleeChecks) :
    post.Covered contract calleeChecks ∨ ∃ dest callee args location,
      post.instruction? = some ⟨.call dest callee args, location⟩ ∧ calleeChecks callee = true := by
  obtain ⟨point, checks, covers⟩ := covered
  rcases Checkpoint.covers_iff.mp covers with ⟨here, behind⟩ | elsewhere
  · cases checks with
    | condition member condition senders checked =>
      exact .inl ⟨_, .condition member condition senders checked, Checkpoint.covers_iff.mpr
        (.inl ⟨here, nofun⟩)⟩
    | @call block index dest callee args location member there checks =>
      rcases Nat.lt_or_eq_of_le (Nat.le_of_lt_succ (behind index rfl)) with before | rfl
      · refine .inl ⟨_, .call member there checks, Checkpoint.covers_iff.mpr
          (.inl ⟨here, fun other same => ?_⟩)⟩
        exact Option.some.inj same ▸ before
      · rw [stands.block_eq member here] at there
        exact .inr ⟨dest, callee, args, location, there, checks⟩
  · exact .inl ⟨point, checks, Checkpoint.covers_iff.mpr (.inr elsewhere)⟩

theorem not_covered_start {function : Function} {types : List Ty}
    (typed : function.Typed declared types) (guarded : function.Guarded)
    (found : function.block? function.entry = some block) :
    ¬ (start function block).Covered contract calleeChecks := by
  have numbered := typed.ids _ block found
  rintro ⟨point, checks, covers⟩
  simp only [start, numbered] at checks covers
  rcases Checkpoint.covers_iff.mp covers with ⟨here, behind⟩ | ⟨apart, dominates⟩
  · cases checks with
    | @condition block value target member condition senders checked =>
      obtain ⟨id, there⟩ := List.mem_iff_getElem?.mp member
      exact (guarded id block target there checked).1 here
    | call member there checks => exact absurd (behind _ rfl) (Nat.not_lt_zero _)
  · exact apart (FlowGraph.eq_of_dominates_entry dominates)

/-- The start of the next block is behind a check only if the end of the last one is, or if that end
is the check. -/
theorem Stands.covered_of_goto (stands : post.Stands contract declared)
    (guarded : post.function.Guarded) (ended : post.index = post.block.instructions.length)
    {target : BlockId} (edge : target ∈ post.block.terminator.node.successors)
    (found : post.function.block? target = some block)
    (covered : (start post.function block).Covered contract calleeChecks) :
    post.Covered contract calleeChecks ∨ ∃ value, post.block.terminator.node.condition? =
      some value ∧
      contract.isSenderCheck (post.function.origins ⟨post.block.id, value⟩) = true ∧
      Contract.checkedBlock? post.function post.block.terminator.node = some target := by
  obtain ⟨types, typed⟩ := stands.function
  have numbered := typed.ids target block found
  obtain ⟨point, checks, covers⟩ := covered
  simp only [start, numbered] at checks covers
  rcases Checkpoint.covers_iff.mp covers with ⟨here, behind⟩ | ⟨apart, dominates⟩
  · cases checks with
    | @condition source value target member condition senders checked =>
      obtain rfl := here
      obtain ⟨id, there⟩ := List.mem_iff_getElem?.mp member
      have only := (guarded id source target there checked).2 post.block.id post.block
        stands.reached stands.block edge
      obtain rfl := stands.block_eq member ((typed.ids id source there).trans only.symm)
      exact .inr ⟨value, condition, senders, checked⟩
    | call member there checks => exact absurd (behind _ rfl) (Nat.not_lt_zero _)
  · refine .inl ⟨point, checks, Checkpoint.covers_iff.mpr ?_⟩
    have low := (typed.stands _ (List.mem_of_getElem? stands.block)).successors target edge
    have leads := FlowGraph.mem_successors.mpr ⟨_, stands.block, edge, low⟩
    by_cases here : point.block = post.block.id
    · refine .inl ⟨here, fun behind same => ?_⟩
      cases checks with
      | condition member condition senders checked => simp at same
      | @call other index dest callee args location member there checks =>
        obtain rfl := Option.some.inj same
        rw [ended, ← stands.block_eq member here]
        exact (List.getElem?_eq_some_iff.mp there).1
    · have reached := typed.mem_reversePostorder stands.reached
      exact .inr ⟨here, FlowGraph.dominates_of_next reached leads apart dominates⟩

theorem Stands.covered_of_returns (stands : post.Stands contract declared)
    (ended : post.index = post.block.instructions.length) {value : Option ValueId}
    (returns : post.block.terminator.node = .ret value)
    (always : contract.alwaysChecksSender post.function calleeChecks = true) :
    post.Covered contract calleeChecks := by
  obtain ⟨types, typed⟩ := stands.function
  simp only [Contract.alwaysChecksSender, List.all_eq_true, Bool.or_eq_true,
    List.any_eq_true] at always
  have reachable : post.block ∈ post.function.reachableBlocks := by
    refine List.mem_filter.mpr ⟨List.mem_of_getElem? stands.block, ?_⟩
    simpa using typed.mem_reversePostorder stands.reached
  obtain ⟨point, listed, covers⟩ :=
    (always _ reachable).resolve_left (by simp [Function.returns?, returns])
  exact ⟨point, Contract.mem_checkpoints.mp listed, ended ▸ covers⟩

end Post

/-! Runs that pass no check. -/

structure Contract.Vetted (contract : Contract) (declared : Declarations)
    (calleeChecks : String → Bool) : Prop where
  code : contract.Typed declared
  guarded : ∀ function ∈ contract.functions, function.Guarded
  justified : ∀ function ∈ contract.functions, calleeChecks function.name = true →
    contract.alwaysChecksSender function calleeChecks = true

namespace Running

/-- Whether running code is about to pass a check of the sender: a requirement that holds, or a
branch whose other side reverts at once. -/
inductive PassesCheck (contract : Contract) (state : Running) : Prop
  | guard {value kind message next cell} : state.frame.pending = [] →
      state.frame.block.terminator.node = .guard value kind message next →
      contract.isSenderCheck (state.frame.function.origins ⟨state.frame.block.id, value⟩) = true →
      state.frame.get? value = .ok cell → cell.value ≠ 0 → PassesCheck contract state
  | branch {value thenBlock elseBlock cell} : state.frame.pending = [] →
      state.frame.block.terminator.node = .branch value thenBlock elseBlock →
      contract.isSenderCheck (state.frame.function.origins ⟨state.frame.block.id, value⟩) = true →
      state.frame.get? value = .ok cell →
      state.frame.function.isRevertBlock (if cell.value = 0 then thenBlock else elseBlock) = true →
      PassesCheck contract state

def Unchecked (contract : Contract) (calleeChecks : String → Bool) (state : Running) : Prop :=
  ∀ post ∈ state.posts, ¬ post.Covered contract calleeChecks

def Bound (calleeChecks : String → Bool) (state : Running) : Prop :=
  ∃ post ∈ state.posts, calleeChecks post.function.name = true

variable {declared : Declarations} {result : Option Ty} {setting : Setting} {state next : Running}
  {calleeChecks : String → Bool}

/-- Going on where a condition checks the sender passes the check. -/
theorem passesCheck_of_goes {contract : Contract} {effects : Effects} {target : BlockId}
    {value : ValueId} (pending : state.frame.pending = [])
    (goes : state.frame.Goes state.effects state.frame.block.terminator.location
      state.frame.block.terminator.node target
      effects)
    (condition : state.frame.block.terminator.node.condition? = some value)
    (senders : contract.isSenderCheck (state.frame.function.origins ⟨state.frame.block.id, value⟩) =
      true)
    (checked : Contract.checkedBlock? state.frame.function state.frame.block.terminator.node =
      some target) :
    state.PassesCheck contract := by
  generalize node : state.frame.block.terminator.node = terminator at *
  cases goes with
  | jump => simp [Terminator.condition?] at condition
  | @branch decides thenBlock elseBlock cell held =>
    obtain rfl := Option.some.inj condition
    refine .branch pending node senders held ?_
    unfold Contract.checkedBlock? at checked
    by_cases zero : cell.value = 0
    · simp only [zero, bne_self_eq_false, Bool.false_eq_true, if_false, if_true] at checked ⊢
      split at checked <;> simp_all
    · simp only [zero, bne_iff_ne, ne_eq, not_false_eq_true, if_true, if_false] at checked ⊢
      split at checked <;> simp_all
  | @guard decides kind message target cell held holds =>
    obtain rfl := Option.some.inj condition
    exact .guard pending node senders held (by simpa using holds)

theorem Unchecked.not_checks {value : Option ValueId}
    (unchecked : state.Unchecked setting.contract calleeChecks)
    (vetted : setting.contract.Vetted declared calleeChecks)
    (typed : state.Typed False setting.contract declared result)
    (pending : state.frame.pending = [])
    (returns : state.frame.block.terminator.node = .ret value) :
    calleeChecks state.frame.function.name ≠ true := by
  intro checks
  have stands := typed.stands _ List.mem_cons_self
  have here := Frame.post_of_pending pending
  rw [here] at stands
  have covered := stands.covered_of_returns rfl returns (vetted.justified _ stands.member checks)
  exact unchecked _ List.mem_cons_self (here ▸ covered)

/-- As long as no check is passed, no call comes to stand behind one. -/
theorem Unchecked.advances {posts : List Post}
    (unchecked : state.Unchecked setting.contract calleeChecks)
    (vetted : setting.contract.Vetted declared calleeChecks)
    (typed : state.Typed False setting.contract declared result) (linked : state.Linked)
    (advances : Advances setting state posts) (fails : ¬ state.PassesCheck setting.contract) :
    ∀ post ∈ posts, ¬ post.Covered setting.contract calleeChecks := by
  obtain ⟨top, below⟩ := List.forall_mem_cons.mp unchecked
  obtain ⟨stands, waits⟩ := List.forall_mem_cons.mp typed.stands
  cases advances with
  | @next instruction there plain =>
    refine List.forall_mem_cons.mpr ⟨fun covered => ?_, below⟩
    rcases stands.covered_of_next covered with before | ⟨dest, callee, args, location, calls, _⟩
    · exact top before
    · rw [there] at calls
      exact plain dest callee args (by rw [Option.some.inj calls])
  | @call dest name args location callee block there found first =>
    obtain ⟨member, _⟩ := Contract.mem_of_function? found
    obtain ⟨types, typed⟩ := vetted.code.functions callee member
    exact List.forall_mem_cons.mpr
      ⟨Post.not_covered_start typed (vetted.guarded callee member) first, unchecked⟩
  | @goto target block effects pending goes found =>
    have here := Frame.post_of_pending pending
    rw [here] at stands top
    refine List.forall_mem_cons.mpr ⟨fun covered => ?_, below⟩
    rcases stands.covered_of_goto (vetted.guarded _ stands.member) rfl goes.mem_successors found
      covered with
      before | ⟨value, condition, senders, checked⟩
    · exact top before
    · exact fails (passesCheck_of_goes pending goes condition senders checked)
  | @giveBack caller callers value pending returns waiting =>
    have unchecks := unchecked.not_checks vetted typed pending returns
    have serves := linked.serves
    rw [posts, waiting, List.map_cons, List.isChain_cons_cons] at serves
    rw [waiting, List.map_cons, List.forall_mem_cons] at below waits
    refine List.forall_mem_cons.mpr ⟨fun covered => ?_, below.2⟩
    obtain ⟨dest, args, location, calls⟩ := serves.1
    rcases waits.1.covered_of_next covered with before
      | ⟨dest', callee, args', location', also, checks⟩
    · exact below.1 before
    · rw [calls] at also
      simp only [Option.some.injEq, Located.mk.injEq, Instruction.call.injEq] at also
      obtain ⟨⟨_, rfl, _⟩, _⟩ := also
      exact unchecks checks

/-- As long as no check is passed, calls of functions that always check do not return. -/
theorem Bound.advances {posts : List Post} (bound : state.Bound calleeChecks)
    (unchecked : state.Unchecked setting.contract calleeChecks)
    (vetted : setting.contract.Vetted declared calleeChecks)
    (typed : state.Typed False setting.contract declared result)
    (advances : Advances setting state posts) :
    ∃ post ∈ posts, calleeChecks post.function.name = true := by
  obtain ⟨post, member, checks⟩ := bound
  have moved {top : Post} (same : top.function = state.frame.function) :
      ∃ post ∈ top :: state.callers.map Caller.post, calleeChecks post.function.name = true := by
    rcases List.mem_cons.mp member with rfl | below
    · exact ⟨top, List.mem_cons_self, by rw [same]; exact checks⟩
    · exact ⟨post, List.mem_cons_of_mem _ below, checks⟩
  cases advances with
  | next there plain => exact moved rfl
  | call there found first => exact ⟨post, List.mem_cons_of_mem _ member, checks⟩
  | goto pending goes found => exact moved rfl
  | @giveBack caller callers value pending returns waiting =>
    have unchecks := unchecked.not_checks vetted typed pending returns
    rw [posts, waiting, List.map_cons] at member
    rcases List.mem_cons.mp member with rfl | waits
    · exact absurd checks unchecks
    · rcases List.mem_cons.mp waits with rfl | below
      · exact ⟨_, List.mem_cons_self, checks⟩
      · exact ⟨post, List.mem_cons_of_mem _ below, checks⟩

structure Unpassed (setting : Setting) (declared : Declarations) (result : Option Ty)
    (calleeChecks : String → Bool) (state : Running) : Prop where
  typed : state.Typed False setting.contract declared result
  linked : state.Linked
  unchecked : state.Unchecked setting.contract calleeChecks

theorem Unpassed.reaches (unpassed : state.Unpassed setting declared result calleeChecks)
    (vetted : setting.contract.Vetted declared calleeChecks) (reaches : Reaches setting state next)
    (fails : ∀ middle, Reaches setting state middle → ¬ middle.PassesCheck setting.contract) :
    next.Unpassed setting declared result calleeChecks ∧
      (state.Bound calleeChecks → next.Bound calleeChecks) := by
  induction reaches with
  | refl => exact ⟨unpassed, id⟩
  | @step state middle final leads further ih =>
    obtain ⟨typed, linked, unchecked⟩ := unpassed
    have advances := linked.advances typed leads.move
    have there : middle.Unpassed setting declared result calleeChecks :=
      ⟨leads.reaches.typed vetted.code False.elim typed, linked.move typed leads.move,
        unchecked.advances vetted typed linked advances (fails state (.refl state))⟩
    obtain ⟨last, kept⟩ := ih there fun other reaches => fails other (.step leads reaches)
    exact ⟨last, fun bound => kept (bound.advances unchecked vetted typed advances)⟩

theorem Unpassed.not_bound (unpassed : state.Unpassed setting declared result calleeChecks)
    (vetted : setting.contract.Vetted declared calleeChecks) {value : Option Cell}
    {effects : Effects} (ends : EndsWith setting state (.returned value) effects)
    (fails : ∀ middle, Reaches setting state middle → ¬ middle.PassesCheck setting.contract) :
    ¬ state.Bound calleeChecks := by
  intro bound
  obtain ⟨last, reaches, alone, pending, yields⟩ := ends.stops
  obtain ⟨⟨typed, _, unchecked⟩, kept⟩ := unpassed.reaches vetted reaches fails
  obtain ⟨post, member, checks⟩ := kept bound
  rw [posts, alone, List.map_nil, List.mem_singleton] at member
  subst member
  generalize node : last.frame.block.terminator.node = terminator at yields
  cases yields with
  | nothing => exact unchecked.not_checks vetted typed pending node checks
  | value held => exact unchecked.not_checks vetted typed pending node checks

end Running

theorem Finding.unprotectedWrite?_isSome {contract : Contract} {declared : Declarations}
    {summaries : Summaries} {post : Post} (stands : post.Stands contract declared)
    {instruction : Located Instruction} (found : post.instruction? = some instruction)
    {field : String}
    (writes : sharedWrite? summaries contract post.function post.block.id instruction.node =
      some field)
    (uncovered : ¬ post.Covered contract (summaries.checksSender contract.name)) :
    (unprotectedWrite? summaries contract post.function).isSome = true := by
  unfold unprotectedWrite?
  rw [List.findSome?_isSome_iff]
  refine ⟨_, mem_reachableInstructions stands found, ?_⟩
  simp only [writes]
  rw [if_neg]
  · rfl
  · simp only [List.any_eq_true]
    rintro ⟨point, listed, covers⟩
    exact uncovered ⟨point, Contract.mem_checkpoints.mp listed, covers⟩

theorem Finding.unprotectedWrite?_eq_none {contract : Contract} {function : Function}
    {summaries : Summaries} {point : Checkpoint}
    (checks : contract.Checks function (summaries.checksSender contract.name) point)
    (covered : ∀ entry ∈ reachableInstructions function,
      sharedWrite? summaries contract function entry.1 entry.2.2.node = none ∨
        point.covers (FlowGraph.ofFunction function) entry.1 entry.2.1 = true) :
    unprotectedWrite? summaries contract function = none := by
  unfold unprotectedWrite?
  rw [List.findSome?_eq_none_iff]
  intro ⟨block, index, instruction⟩ listed
  rcases covered _ listed with plain | covers
  · simp only at plain
    simp only [plain]
  · dsimp only
    split
    · rfl
    · exact if_pos (List.any_eq_true.mpr ⟨point, Contract.mem_checkpoints.mpr checks, covers⟩)

theorem Finding.completes_missingAccessControl {set : ContractSet} {budget : Nat}
    (summaries : total (set.contracts.map Summary.costBound) ≤ budget)
    (cost : openCost set ≤ budget)
    (clean : ∀ entry ∈ openFunctions set,
      unprotectedWrite? (Summaries.ofSet set).1 entry.1 entry.2 = none) :
    Check.missingAccessControl.Completes set budget [] := by
  have completes :=
    Check.completes .missingAccessControl nofun ((Summaries.cost_le set).trans summaries) cost
  have nothing : (Check.missingAccessControl.findings (Summaries.ofSet set).1 set).issues = [] :=
    List.filterMap_eq_nil_iff.mpr fun entry listed =>
      Option.map_eq_none_iff.mpr (clean entry listed)
  rwa [nothing] at completes

theorem Contract.isSenderCheck_of_mem {contract : Contract} {function : Function} {site : Site}
    {name : String} (sender : Origin.env .sender ∈ function.foundOrigins site)
    (stored : Origin.field name ∈ function.foundOrigins site)
    (identity : contract.isIdentityField name = true) :
    contract.isSenderCheck (function.origins site) = true := by
  simp only [isSenderCheck, Bool.and_eq_true, List.contains_iff_mem, List.any_eq_true]
  exact ⟨Function.mem_origins.mpr sender, _, Function.mem_origins.mpr stored, identity⟩

theorem ContractSet.vetted_of_ofText {text : String} {contract : Contract}
    (member : contract ∈ (ofText text).contracts) {declared : Declarations}
    (code : contract.Typed declared) :
    contract.Vetted declared ((Summaries.ofSet (ofText text)).1.checksSender contract.name) :=
  ⟨code, fun _ listed => guarded_of_ofText member listed, fun _ listed checks =>
    alwaysChecks member listed checks⟩

namespace Running

/-- What a run is about to write is seen at the place of its first function, as long as no call that
is running always checks the sender. -/
theorem Runs.sharedWrite? {contract : Contract} {declared : Declarations} {result : Option Ty}
    {state : Running} {summaries : Summaries} {field : String} {key : Option ValueId}
    {value : ValueId} (runs : state.Runs (.storeField field key value))
    (typed : state.Typed False contract declared result) (linked : state.Linked)
    (summarized : contract.Summarized summaries)
    (shared : state.frame.function.isSenderKeyed state.frame.block.id key = false)
    (free : ¬ state.Bound (summaries.checksSender contract.name)) :
    ∃ instruction written, state.outermost.instruction? = some instruction ∧
      Finding.sharedWrite? summaries contract state.outermost.function state.outermost.block.id
        instruction.node =
        some written := by
  have additive := Effect.additive_contains Effect.sharedWrites rfl (fun _ _ => rfl) field
  rcases runs.at_outermost typed linked summarized additive
    (by simp [Function.effectAt, shared]) with
    ⟨last, _, here⟩ | ⟨upper, listed, _, _, _, calls, summary, found, holds⟩
  · refine ⟨_, field, here, ?_⟩
    have stays : state.outermost.function.isSenderKeyed state.outermost.block.id key = false :=
      last ▸ shared
    simp only [Finding.sharedWrite?, stays]
    rfl
  · have unchecks : summary.checksSender = false := by
      rw [Bool.eq_false_iff]
      exact fun checks =>
        free ⟨upper, listed, by simpa [Summaries.checksSender, found] using checks⟩
    cases written : summary.effect.sharedWrites with
    | nil => simp [written] at holds
    | cons first others =>
      refine ⟨_, first, calls, ?_⟩
      simp only [Finding.sharedWrite?, found, unchecks, written, List.head?_cons]
      rfl

end Running

namespace ContractSet

/-- If no write that anyone can cause is found in a function, every run of it that succeeds and
comes to write a shared field, by itself or in a function that it calls, passes a check of the
sender. -/
theorem checks_sender_of_clean {text : String} {budget : Nat} {issues : List Issue}
    (completes : Check.missingAccessControl.Completes (ofText text) budget issues)
    {contract : Contract} (member : contract ∈ (ofText text).contracts) {name : String}
    {function : Function} (found : contract.function? name = some function)
    (everyone : function.kind = .everyone)
    (clean : ∀ issue ∈ issues,
      ¬ (issue.function = some function.name ∧ issue.location = some function.location))
    {inputs : Inputs} {limits : RunLimits} {report : Report}
    (ran : contract.run limits name inputs = .ok report)
    (succeeds : report.result.isSuccess = true) {frame : Frame}
    (framed : function.frame (function.entryCells inputs.args) = .ok frame) {writing : Running}
    (reaches : Running.Reaches (inputs.setting contract limits)
      ⟨frame, [], Effects.start inputs.storage⟩ writing)
    {field : String} {key : Option ValueId} {value : ValueId}
    (writes : writing.Runs (.storeField field key value))
    (shared : writing.frame.function.isSenderKeyed writing.frame.block.id key = false) :
    ∃ state, Running.Reaches (inputs.setting contract limits)
      ⟨frame, [], Effects.start inputs.storage⟩ state ∧
      state.PassesCheck contract := by
  by_contra fails
  push Not at fails
  obtain ⟨declared, code⟩ := typed_of_ofText member
  obtain ⟨_, _, ending, effects, found', count, framed', ended, rfl⟩ :=
    Contract.run_eq_ok_iff.mp ran
  obtain rfl := Option.some.inj (found.symm.trans found')
  obtain rfl := Except.ok.inj (framed.symm.trans framed')
  have typed := code.of_frame found count framed inputs.storage
  obtain ⟨listed, _⟩ := Contract.mem_of_function? found
  have vetted := vetted_of_ofText member code
  have linked := Running.linked_start frame (Effects.start inputs.storage)
  -- the run begins where nothing is checked yet
  have unchecked :
    Running.Unchecked contract ((Summaries.ofSet (ofText text)).1.checksSender contract.name)
      ⟨frame, [], Effects.start inputs.storage⟩ := by
    obtain ⟨types, checked⟩ := code.functions function listed
    obtain ⟨same, first, whole⟩ := Function.frame_eq_ok framed
    have start : frame.post = .start function frame.block := by
      simp [Frame.post, Post.start, same, whole]
    intro post inside
    rw [Running.posts, List.map_nil, List.mem_singleton, start] at inside
    exact inside ▸ Post.not_covered_start checked (vetted.guarded function listed) first
  have unpassed : Running.Unpassed (inputs.setting contract limits) declared function.returns
      ((Summaries.ofSet (ofText text)).1.checksSender contract.name)
      ⟨frame, [], Effects.start inputs.storage⟩ :=
    ⟨typed, linked, unchecked⟩
  obtain ⟨⟨last, chain, open?⟩, _⟩ := unpassed.reaches vetted reaches fails
  obtain ⟨returned, rfl⟩ : ∃ returned, ending = .returned returned := by
    cases ending with
    | returned returned => exact ⟨returned, rfl⟩
    | reverted message => simp [Contract.report, CallResult.isSuccess] at succeeds
  have ends : Running.EndsWith (inputs.setting contract limits)
    ⟨frame, [], Effects.start inputs.storage⟩
      (.returned returned) effects := ⟨limits.callDepth, limits.fuel, limits.fuel, ended⟩
  have free := Running.Unpassed.not_bound ⟨last, chain, open?⟩ vetted (reaches.endsWith_rest ends)
    fun middle further => fails middle (reaches.trans further)
  obtain ⟨instruction, written, there, seen⟩ :=
    writes.sharedWrite? last chain (summarized member) shared free
  -- so the write is at an unchecked place of the function itself
  have outer := List.getLast_mem writing.posts_ne_nil
  have stands := typed.stands _
    (List.getLast_mem (Running.posts_ne_nil ⟨frame, [], Effects.start inputs.storage⟩))
  obtain ⟨_, same⟩ := stands.along (reaches.outermost code typed linked)
  have here : writing.outermost.function = function := same.trans (Function.frame_eq_ok framed).1
  have unprotected := Finding.unprotectedWrite?_isSome (last.stands _ outer) there seen
    (open? _ outer)
  obtain ⟨field, unprotected⟩ := Option.isSome_iff_exists.mp unprotected
  rw [show (writing.posts.getLast writing.posts_ne_nil).function =
    function from here] at unprotected
  rw [completes.issues_eq] at clean
  exact clean _ (List.mem_filterMap.mpr ⟨_, Finding.mem_openFunctions member listed everyone,
    Option.map_eq_some_iff.mpr ⟨field, unprotected, rfl⟩⟩) ⟨rfl, rfl⟩

/-- A function that requires the sender to be the stored owner is not reported, and its run passes
the requirement. -/
theorem checks_sender_of_owner_check :
    let text :=
      "contract A \x7b owner: address a: u8 f() \x7b require(msg.sender == self.owner) self.a = 1 \x7d \x7d"
    Check.missingAccessControl.Completes (ofText text) Pass.standardBudget [] ∧
      ∃ contract ∈ (ofText text).contracts, ∃ function, contract.function? "f" = some function ∧
        ∃ frame writing, function.frame (function.entryCells []) = .ok frame ∧
          Running.Reaches (Inputs.empty.setting contract .standard)
            ⟨frame, [], Effects.start []⟩ writing ∧
          writing.Runs (.storeField "a" none 3) ∧
          ∃ state, Running.Reaches (Inputs.empty.setting contract .standard)
            ⟨frame, [], Effects.start []⟩ state ∧
            state.PassesCheck contract := by
  intro text
  have facts : total ((ofText text).contracts.map Summary.costBound) ≤ Pass.standardBudget ∧
      Finding.openCost (ofText text) ≤ Pass.standardBudget ∧
      (∀ entry ∈ Finding.openFunctions (ofText text), ∃ block ∈ entry.2.blocks,
        ∃ value ∈ block.terminator.node.condition?, Origin.env .sender ∈ entry.2.foundOrigins
          ⟨block.id, value⟩ ∧
        Origin.field "owner" ∈ entry.2.foundOrigins ⟨block.id, value⟩ ∧
        entry.1.isIdentityField "owner" = true ∧
        Contract.checkedBlock? entry.2 block.terminator.node = some 1 ∧
        ∀ place ∈ Finding.reachableInstructions entry.2,
          Finding.sharedWrite? (Summaries.ofSet (ofText text)).1 entry.1 entry.2 place.1
            place.2.2.node = none ∨
            (⟨1, none⟩ : Checkpoint).covers (FlowGraph.ofFunction entry.2) place.1 place.2.1 =
              true) ∧
      ∃ contract ∈ (ofText text).contracts, ∃ function ∈ contract.function? "f",
        function.kind = .everyone ∧
        (contract.run .standard "f" .empty).toOption.map (fun report => report.result.isSuccess) =
          some true ∧
        ∃ frame ∈ (function.frame (function.entryCells Inputs.empty.args)).toOption,
          ∃ reached ∈ Running.follow (Inputs.empty.setting contract .standard) 5
            ⟨frame, [], Effects.start []⟩,
            reached.2.frame.pending.head?.map Located.node = some (.storeField "a" none 3) := by
    decide +kernel
  obtain ⟨summarized, searched, covered, checked⟩ := facts
  have completes := Finding.completes_missingAccessControl summarized searched
    fun entry listed => by
    obtain ⟨block, member, value, condition, sender, stored, identity, checked, covers⟩ :=
      covered entry listed
    have senders := Contract.isSenderCheck_of_mem sender stored identity
    exact Finding.unprotectedWrite?_eq_none (.condition member condition senders checked) covers
  obtain ⟨contract, member, function, found, everyone, succeeds, frame, framed, ⟨_, writing⟩,
    walked, writes⟩ := checked
  obtain ⟨report, ran, succeeds⟩ := Option.map_eq_some_iff.mp succeeds
  have framed := Running.toOption_eq_some.mp framed
  have reaches := (Running.shows_of_follow walked).reaches
  have runs := Running.runs_of_head? writes
  exact ⟨completes, contract, member, function, found, frame, writing, framed, reaches, runs,
    checks_sender_of_clean completes member found everyone nofun (Running.toOption_eq_some.mp ran)
      succeeds framed reaches runs rfl⟩

end ContractSet

end Covenant
