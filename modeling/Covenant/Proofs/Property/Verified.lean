import Covenant.Proofs.Property.Proven
import Covenant.Proofs.Property.Rules

/-!
What is verified is true of every run, as long as the search attends to all that its steps may do. A
function that could break the rule is one that was followed: one of its paths is that of the run,
and the rule is known to hold at its end. Any other function writes to no field that the rule
depends on.
-/

namespace Covenant

variable {contract : Contract} {declared : Declarations} {summaries : Summaries}
  {limits : RunLimits} {function : Function} {inputs : Inputs} {report : Report} {rule : Rule}

/-! Calls that succeed. -/

inductive Contract.Succeeds (contract : Contract) (declared : Declarations) (limits : RunLimits)
    (function : Function) (inputs : Inputs) : Report → Prop
  | returns {frame : Frame} {last : Running} {cell : Option Cell} {effects : Effects}
      (count : function.params.length = inputs.args.length)
      (framed : function.frame (function.entryCells inputs.args) = .ok frame)
      (typed : Running.Typed True contract declared function.returns
        ⟨frame, [], Effects.start inputs.storage⟩)
      (reaches : Running.Reaches (inputs.setting contract limits)
        ⟨frame, [], Effects.start inputs.storage⟩ last)
      (stops : last.Stops cell effects) :
      Succeeds contract declared limits function inputs
        (Contract.report inputs.storage (.returned cell) effects)

theorem Contract.succeeds_of_run (code : contract.Typed declared)
    (storage : inputs.storage.Fits contract)
    (found : contract.function? function.name = some function)
    (ran : contract.run limits function.name inputs = .ok report)
    (success : report.result.isSuccess = true) :
    contract.Succeeds declared limits function inputs report := by
  obtain ⟨other, frame, ending, effects, there, count, framed, ended, rfl⟩ := run_eq_ok_iff.mp ran
  obtain rfl := Option.some.inj (found.symm.trans there)
  obtain ⟨start, begun, typed⟩ := code.start found count fun _ : True => storage
  obtain rfl := Except.ok.inj (framed.symm.trans begun)
  cases ending with
  | reverted message => simp [Contract.report, CallResult.isSuccess] at success
  | returned cell =>
    have ends : Running.EndsWith (inputs.setting contract limits)
      ⟨frame, [], Effects.start inputs.storage⟩
        (.returned cell) effects := ⟨limits.callDepth, limits.fuel, limits.fuel, ended⟩
    obtain ⟨last, reaches, stops⟩ := ends.stops
    exact .returns count framed typed reaches stops

theorem Contract.exists_report {contract : Contract} {limits : RunLimits} {name : String}
    {inputs : Inputs}
    (ends : ((contract.run limits name inputs).toOption.any fun report => report.result.isSuccess) =
      true) :
    ∃ report, contract.run limits name inputs = .ok report ∧ report.result.isSuccess = true := by
  cases ran : contract.run limits name inputs with
  | error problem => simp [ran, Except.toOption] at ends
  | ok report => exact ⟨report, rfl, by simpa [ran, Except.toOption] using ends⟩

def Course.ofCall (contract : Contract) (declared : Declarations) (summaries : Summaries)
    (limits : RunLimits) (function : Function) (inputs : Inputs) (effects : Effects) : Course :=
  { contract, declared, summaries, setting := inputs.setting contract limits, initial :=
    inputs.storage
    args := function.entryCells inputs.args, stores := effects.stores }

section Calls

variable (code : contract.Typed declared) (summarized : contract.Summarized summaries)
  (env : inputs.env.Fits) (storage : inputs.storage.Fits contract) {frame : Frame} {last : Running}
  {cell : Option Cell} {effects : Effects}
  (typed : Running.Typed True contract declared function.returns
    ⟨frame, [], Effects.start inputs.storage⟩)
  (reaches : Running.Reaches (inputs.setting contract limits)
    ⟨frame, [], Effects.start inputs.storage⟩ last)
  (stops : last.Stops cell effects)

include code env typed reaches stops

theorem Running.Stops.effects_fit : effects.storage.Fits contract ∧
    ∀ store ∈ effects.stores, Storage.Admits contract store.place store.value := by
  have coded : (inputs.setting contract limits).contract.Typed declared := code
  have fits := (reaches.typed coded (fun _ => env) typed).effects trivial
  have same := stops.yields.same
  exact ⟨same.storage ▸ fits.storage, same.stores ▸ fits.stores⟩

include summarized storage in
theorem Course.sound_ofCall :
    (Course.ofCall contract declared summaries limits function inputs effects).Sound where
  code := code
  summarized := summarized
  same := rfl
  env := env
  initial := storage
  stores := (stops.effects_fit code env typed reaches).2

end Calls

/-! Functions that are followed. -/

namespace Explorer

variable {explorer : Explorer}

/-- Whether the search for the paths of a function attends to all that its steps may do. -/
def attendsTo (explorer : Explorer) (function : Function) (rule : Rule) : Bool :=
  match start Arena.empty function with
  | (.error _, _) => true
  | (.ok path, arena) =>
    match explorer.assumeAtStart function rule arena path with
    | .error _ => true
    | .ok (state, arena) =>
      explorer.attendsAll rule.isMindful explorer.limits.fuel arena [{ path with state }]

theorem proves_eq_true (proven : explorer.proves function rule = .ok true) :
    ∃ path arena state later, start Arena.empty function = (.ok path, arena) ∧
      explorer.assumeAtStart function rule arena path = .ok (state, later) ∧
      (explorer.explore later { path with state }).halt = none ∧
      explorer.holdsAtEnds rule (explorer.explore later { path with state }).arena
        (explorer.explore later { path with state }).paths = .ok true := by
  unfold proves at proven
  split at proven
  · simp at proven
  · rename_i path arena begun
    obtain ⟨⟨state, later⟩, assumed, proven⟩ := chain_eq_ok.mp proven
    dsimp only at proven
    split at proven
    · simp [throw, throwThe, MonadExceptOf.throw] at proven
    · rename_i complete
      exact ⟨path, arena, state, later, begun, assumed, complete, proven⟩

theorem matches_assumeAtStart {course : Course} {path : Path} {arena later : Arena}
    {numbers : SymbolId → Nat} {state : PathState} {effects : Effects} (sound : course.Sound)
    (sameContract : explorer.contract = course.contract)
    (sameSummaries : explorer.summaries = course.summaries) (ordered : arena.Scoped)
    (within : path.state.Within arena)
    (matched : path.state.Matches course arena numbers rule.isMindful effects)
    (fits : effects.storage.Fits course.contract)
    (valid : Property.validate explorer.contract explorer.summaries rule = .ok ())
    (holds : function.kind ≠ .init → ∀ field bound, rule = .boundedBy field bound → ∃ limit,
      Witness.boundValue? course.contract limits course.setting.env effects.storage bound =
        some limit ∧
        effects.storage.get ⟨field, none⟩ ≤ limit)
    (assumed : explorer.assumeAtStart function rule arena path = .ok (state, later))
    (respects : later.Respects course.valuation numbers) :
    state.Matches course later numbers rule.isMindful effects := by
  unfold assumeAtStart at assumed
  split at assumed
  · obtain ⟨rfl, rfl⟩ := Prod.mk.inj (Except.ok.inj assumed)
    exact matched
  · rename_i running
    have called : function.kind ≠ .init := by simpa using running
    exact matches_assumeRule sound sameContract sameSummaries ordered within matched fits valid
      (holds called) assumed respects

theorem grows_assumeAtStart {path : Path} {arena later : Arena} {state : PathState}
    (ordered : arena.Scoped) (within : path.state.Within arena)
    (assumed : explorer.assumeAtStart function rule arena path = .ok (state, later)) :
    arena.Extends later ∧ later.Scoped ∧ state.writes = path.state.writes := by
  unfold assumeAtStart at assumed
  split at assumed
  · obtain ⟨rfl, rfl⟩ := Prod.mk.inj (Except.ok.inj assumed)
    exact ⟨.refl _, ordered, rfl⟩
  · exact grows_assumeRule ordered within assumed

end Explorer

theorem Function.entryCells_fit (count : function.params.length = inputs.args.length) :
    (function.entryCells inputs.args).length = function.params.length ∧
      ∀ (index : Nat) (param : String × Ty), function.params[index]? = some param →
        ∃ value, (function.entryCells inputs.args)[index]? = some (.clean value) ∧
        value < param.2.bound := by
  refine ⟨by simp [entryCells, count], fun index param there => ?_⟩
  have inside : index < inputs.args.length := count ▸ (List.getElem?_eq_some_iff.mp there).1
  refine ⟨param.2.wrap inputs.args[index], ?_, Ty.wrap_lt _ _⟩
  simp [entryCells, List.getElem?_zipWith, there, inside]

section Following

variable (code : contract.Typed declared) (summarized : contract.Summarized summaries)
  (member : function ∈ contract.functions) (env : inputs.env.Fits)
  (storage : inputs.storage.Fits contract) (deployed : function.kind = .init → inputs.storage = [])
  (starts : inputs.StartsWithin contract limits function rule)
  (valid : Property.validate contract summaries rule = .ok ()) {budget : VerifierLimits}

include code summarized member env storage deployed starts valid

/-- The path from which a function is followed matches the start of each of its runs. -/
theorem Explorer.matches_followed {frame : Frame} {last : Running} {cell : Option Cell}
    {effects : Effects} (count : function.params.length = inputs.args.length)
    (framed : function.frame (function.entryCells inputs.args) = .ok frame)
    (typed : Running.Typed True contract declared function.returns
      ⟨frame, [], Effects.start inputs.storage⟩)
    (reaches : Running.Reaches (inputs.setting contract limits)
      ⟨frame, [], Effects.start inputs.storage⟩ last)
    (stops : last.Stops cell effects) {path : Path} {arena later : Arena} {state : PathState}
    {numbers : SymbolId → Nat} (begun : start Arena.empty function = (.ok path, arena))
    (assumed : assumeAtStart ⟨contract, summaries, budget⟩ function rule arena path =
      .ok (state, later))
    (respects :
      later.Respects
        (Course.ofCall contract declared summaries limits function inputs effects).valuation
        numbers) :
    Path.Matches (Course.ofCall contract declared summaries limits function inputs effects) later
      numbers rule.isMindful { path with state } ⟨frame, [], Effects.start inputs.storage⟩ := by
  have sound := Course.sound_ofCall code summarized env storage typed reaches stops
  obtain ⟨ordered, within⟩ := within_start begun
  obtain ⟨grown, kept, _⟩ := grows_assumeAtStart ordered within.state assumed
  obtain ⟨length, fits⟩ := Function.entryCells_fit count
  have empty (init : function.kind = .init) (place : StorageKey) :
      inputs.storage.get place = 0 := by
    rw [deployed init]
    rfl
  have begins : path.Matches
    (Course.ofCall contract declared summaries limits function inputs effects) arena numbers
      rule.isMindful ⟨frame, [], Effects.start inputs.storage⟩ :=
    matches_start sound member begun (respects.of_extends ordered grown) length fits empty framed
  have holds (called : function.kind ≠ .init) (field : String) (bound : Bound)
      (same : rule = .boundedBy field bound) :
      ∃ limit, Witness.boundValue? contract limits inputs.env inputs.storage bound = some limit ∧
        inputs.storage.get ⟨field, none⟩ ≤ limit := by
    subst same
    exact starts called
  exact ⟨begins.frame.mono ordered grown, begins.callers.mono ordered grown,
    matches_assumeAtStart sound rfl rfl ordered within.state begins.state storage valid holds
      assumed respects⟩

/-- A run of a function that is proved to keep a rule does not break it: one of the paths that are
found is its own. -/
theorem Contract.Succeeds.not_breaks_of_proves
    (succeeds : contract.Succeeds declared limits function inputs report)
    (proven : Explorer.proves ⟨contract, summaries, budget⟩ function rule = .ok true)
    (attends : Explorer.attendsTo ⟨contract, summaries, budget⟩ function rule = true) :
    ¬ report.Breaks contract limits inputs rule := by
  obtain @⟨frame, last, cell, effects, count, framed, typed, reaches, stops⟩ := succeeds
  obtain ⟨fits, _⟩ := stops.effects_fit code env typed reaches
  have sound := Course.sound_ofCall code summarized env storage typed reaches stops
  obtain ⟨path, arena, state, later, begun, assumed, complete, holds⟩ :=
    Explorer.proves_eq_true proven
  simp only [Explorer.attendsTo, begun, assumed] at attends
  obtain ⟨ordered, within⟩ := Explorer.within_start begun
  obtain ⟨grown, kept, writes⟩ := Explorer.grows_assumeAtStart ordered within.state assumed
  have inside : Explorer.AllWithin later [{ path with state }] [] :=
    ⟨kept, by simpa using (within.mono grown).withState writes, by simp⟩
  have completes := Explorer.follow_completes ⟨contract, summaries, budget⟩ budget.fuel 1 inside
  obtain ⟨whole, scopes, further, all⟩ :=
    Explorer.holdsAtEnd_of_holdsAtEnds completes.within.ordered completes.within.done holds
  -- the values of the last arena stand for those of the run, and so do those of all arenas before
  -- it
  have respects := Arena.respects_meaning scopes
    (Course.ofCall contract declared summaries limits function inputs effects).valuation
  have found := respects.of_extends completes.within.ordered further
  have first := Explorer.matches_followed code summarized member env storage deployed starts valid
    count framed typed reaches stops begun assumed (found.of_extends kept completes.grown)
  obtain ⟨ended, listed, agrees⟩ := Explorer.covers_follow sound rfl rfl stops
    (List.suffix_refl _) budget.fuel 1 inside complete found attends List.mem_cons_self
    first typed reaches
  obtain ⟨before, after, extended, ranked, held, orders, remains⟩ := all ended listed
  exact Explorer.not_breaks_of_holdsAtEnd sound rfl rfl rfl rfl ranked
    ((completes.within.done ended listed).mono extended)
    (agrees.mono completes.within.ordered extended) fits valid held
    (respects.of_extends orders remains)

end Following

/-! Functions that write to no field that the rule depends on. -/

theorem Explorer.readVersions_start {explorer : Explorer} {empty : Bool} {name field : String}
    {version : Nat}
    (member : (field, version) ∈ explorer.readVersions (PathState.start empty) name) :
    version = 0 ∧ ∃ summary, explorer.summaries.get? explorer.contract.name name = some summary ∧
      field ∈ summary.effect.reads := by
  unfold readVersions at member
  split at member
  · rename_i summary found
    obtain ⟨other, listed, same⟩ := List.mem_map.mp member
    obtain ⟨rfl, rfl⟩ := Prod.mk.inj same
    exact ⟨by simp [PathState.version, PathState.start], summary, found, listed⟩
  · simp at member

/-- What a bound is does not change as long as what it depends on does not. -/
theorem Course.boundValue?_unique {course : Course} (sound : course.Sound) {field : String}
    {bound : Bound} {limit other : Nat} {storage : Storage}
    (valid : Property.validate course.contract course.summaries (.boundedBy field bound) = .ok ())
    (before : Witness.boundValue? course.contract limits course.setting.env course.initial bound =
      some limit)
    (after : Witness.boundValue? course.contract limits course.setting.env storage bound =
      some other)
    (fits : storage.Fits course.contract)
    (kept : ∀ place : StorageKey,
      place.field ∈ Property.dependencies course.contract course.summaries
        (.boundedBy field bound) →
        storage.get place = course.initial.get place) : limit = other := by
  cases bound with
  | field name =>
    obtain rfl := Option.some.inj before
    obtain rfl := Option.some.inj after
    exact (kept ⟨name, none⟩ (by simp [Property.dependencies])).symm
  | function name =>
    obtain ⟨_, _, ofFunction⟩ := Property.validate_boundedBy valid
    obtain ⟨_, _, _, _, quiet⟩ := Contract.isBoundFunction_eq_true (ofFunction name rfl)
    let explorer : Explorer := ⟨course.contract, course.summaries, VerifierLimits.standard⟩
    have sameContract : explorer.contract = course.contract := rfl
    have sameSummaries : explorer.summaries = course.summaries := rfl
    have first := Course.answers_of_boundValue? sound sameContract sameSummaries before
      sound.initial quiet (PathState.start true) fun place version member => by
        obtain ⟨rfl, _⟩ := Explorer.readVersions_start member
        exact (Storage.atVersion_zero _ _ _).symm
    have second := Course.answers_of_boundValue? sound sameContract sameSummaries after fits quiet
      (PathState.start true) fun place version member => by
        obtain ⟨rfl, summary, found, reads⟩ := Explorer.readVersions_start member
        rw [Storage.atVersion_zero]
        refine kept place ?_
        have found : course.summaries.get? course.contract.name name = some summary := found
        simp [Property.dependencies, found, reads]
    exact first.unique second

/-- A run of a function that writes to no field that a rule depends on does not break the rule. -/
theorem Contract.Succeeds.not_breaks_of_untouched
    (succeeds : contract.Succeeds declared limits function inputs report)
    (code : contract.Typed declared) (summarized : contract.Summarized summaries)
    (env : inputs.env.Fits) (storage : inputs.storage.Fits contract)
    (deployed : function.kind = .init → inputs.storage = [])
    (starts : inputs.StartsWithin contract limits function rule)
    (valid : Property.validate contract summaries rule = .ok ()) {summary : Summary}
    (found : summaries.get? contract.name function.name = some summary)
    (untouched : ∀ field ∈ summary.effect.writes,
      field ∉ Property.dependencies contract summaries rule) :
    ¬ report.Breaks contract limits inputs rule := by
  obtain @⟨frame, last, cell, effects, count, framed, typed, reaches, stops⟩ := succeeds
  obtain ⟨fits, _⟩ := stops.effects_fit code env typed reaches
  have sound := Course.sound_ofCall code summarized env storage typed reaches stops
  have same := stops.yields.same
  have apart (store : StoreRecord) (member : store ∈ effects.stores) :
      store.place.field ∉ Property.dependencies contract summaries rule := by
    rw [← (Function.frame_eq_ok framed).1] at found
    have summed : (inputs.setting contract limits).contract.Summarized summaries := summarized
    have written := reaches.stores_in_summary summed code (typed.weaken False.elim) found store
      (same.stores ▸ member)
    exact untouched _ (written.resolve_left (by simp [Effects.start]))
  have kept (place : StorageKey)
      (depends : place.field ∈ Property.dependencies contract summaries rule) :
      effects.storage.get place = inputs.storage.get place := by
    rw [((reaches.recorded (Effects.Recorded.start _)).same same).storage place]
    have last : latest? effects.stores place = none := by
      refine List.find?_eq_none.mpr fun store member there => apart store member ?_
      rw [eq_of_beq there]
      exact depends
    simp [Storage.afterWrites, last]
  cases rule with
  | boundedBy field bound =>
    rintro ⟨limit, bounds, above⟩
    have above : limit < effects.storage.get ⟨field, none⟩ := above
    have depends : field ∈ Property.dependencies contract summaries (.boundedBy field bound) := by
      cases bound with
      | field name => simp [Property.dependencies]
      | function name =>
        simp only [Property.dependencies]
        split <;> simp
    rw [kept ⟨field, none⟩ depends] at above
    by_cases init : function.kind = .init
    · rw [deployed init] at above
      exact Nat.not_lt_zero _ above
    · obtain ⟨first, begun, below⟩ := starts init
      obtain rfl := Course.boundValue?_unique sound valid begun bounds fits kept
      omega
  | noUnderflow field =>
    rintro ⟨store, member, rfl, _⟩
    exact apart store (List.mem_reverse.mp member) (by simp [Property.dependencies])
  | ownerOnly field owner =>
    rintro ⟨_, store, member, rfl⟩
    exact apart store (List.mem_reverse.mp member) (by simp [Property.dependencies])

/-! What is verified. -/

/-- Whether no call of a function that succeeds breaks a rule, if it starts as the rule asks for:
with storage that is empty if the contract is only being deployed, and with inputs that fit their
types. -/
def Function.Keeps (contract : Contract) (function : Function) (rule : Rule) : Prop :=
  ∀ (limits : RunLimits) (inputs : Inputs) (report : Report), inputs.env.Fits →
    inputs.storage.Fits contract →
    (function.kind = .init → inputs.storage = []) →
    inputs.StartsWithin contract limits function rule →
    contract.run limits function.name inputs = .ok report → report.result.isSuccess = true →
    ¬ report.Breaks contract limits inputs rule

namespace ContractSet

/-- Whether the search attends to all that its steps may do, for each function that could break a
property. -/
def attendsTo (set : ContractSet) (limits : VerifierLimits) (property : Property) : Bool :=
  match set.contract? property.contract with
  | none => true
  | some contract =>
    let summaries := (Summaries.ofSet set).1
    (Property.relevantFunctions contract summaries property.rule).all fun function =>
      Explorer.attendsTo ⟨contract, summaries, limits⟩ function property.rule

variable {text : String} {limits : VerifierLimits} {properties : List Property}
  {property : Property} {results : List Verification}

/-- What is verified is kept by all functions that the rule speaks about, if the search attends to
all that its steps may do: those that could break it are followed, and the others write to no field
that it depends on. -/
theorem keeps_of_verified (answered : (ofText text).verify limits properties = .ok results)
    (verified : ⟨property, .verified⟩ ∈ results)
    (attends : (ofText text).attendsTo limits property = true) :
    ∃ contract, (ofText text).contract? property.contract = some contract ∧
      ∀ function ∈ contract.entryPoints,
        (∀ field owner, property.rule = .ownerOnly field owner → function.kind = .everyone) →
          function.Keeps contract property.rule := by
  obtain ⟨_, checked⟩ := check_of_mem_verify answered verified (by simp)
  obtain ⟨contract, found, valid, examined⟩ := examine_of_check checked (by simp)
  refine ⟨contract, found,
    fun function member spoken run inputs report env storage deployed starts ran success => ?_⟩
  obtain ⟨_, doubtless⟩ := Explorer.examine_eq_verified.mp examined
  simp only [attendsTo, found, List.all_eq_true] at attends
  have inside := (mem_of_contract? found).1
  obtain ⟨declared, code⟩ := typed_of_ofText inside
  have summarized := summarized inside
  have listed : function ∈ contract.functions := (List.mem_filter.mp member).1
  have succeeds :=
    Contract.succeeds_of_run code storage
      ((wellFormed_of_ofText inside).function? listed) ran success
  obtain ⟨summary, known⟩ := summarized.found function listed
  by_cases touched : ∃ field ∈ summary.effect.writes,
      field ∈ Property.dependencies contract (Summaries.ofSet (ofText text)).1 property.rule
  · have relevant : function ∈ Property.relevantFunctions contract
        (Summaries.ofSet (ofText text)).1 property.rule := by
      refine List.mem_filter.mpr ⟨member, ?_⟩
      rw [Bool.and_eq_true]
      refine ⟨?_, by simpa [known] using touched⟩
      split
      · rename_i field owner same
        simp [spoken field owner same]
      · rfl
    exact succeeds.not_breaks_of_proves code summarized listed env storage deployed starts valid
      (Explorer.doubt?_eq_none.mp (doubtless function relevant)) (attends function relevant)
  · push Not at touched
    exact succeeds.not_breaks_of_untouched code summarized env storage deployed starts valid
      known touched

/-- A bound that is verified holds behind each call that starts within it, and a field of which it
is verified that only its owner may change it is not written by a call of anybody else, if the
search attends to all that its steps may do. -/
theorem bounds_and_owners_of_verified (text : String) (limits : VerifierLimits)
    (properties : List Property) (results : List Verification)
    (answered : (ofText text).verify limits properties = .ok results) (name : String) :
    (∀ field bound, ⟨⟨name, .boundedBy field bound⟩, .verified⟩ ∈ results →
      (ofText text).attendsTo limits ⟨name, .boundedBy field bound⟩ = true →
      ∃ contract, (ofText text).contract? name = some contract ∧
        ∀ function ∈ contract.entryPoints,
          ∀ (run : RunLimits) (inputs : Inputs) (report : Report) (limit : Nat), inputs.env.Fits →
            inputs.storage.Fits contract → (function.kind = .init → inputs.storage = []) →
          inputs.StartsWithin contract run function (.boundedBy field bound) →
          contract.run run function.name inputs = .ok report → report.result.isSuccess = true →
          Witness.boundValue? contract run inputs.env report.storage bound = some limit →
          report.storage.get ⟨field, none⟩ ≤ limit) ∧
    ∀ field owner, ⟨⟨name, .ownerOnly field owner⟩, .verified⟩ ∈ results →
      (ofText text).attendsTo limits ⟨name, .ownerOnly field owner⟩ = true →
      ∃ contract, (ofText text).contract? name = some contract ∧
        ∀ function ∈ contract.functions, function.kind = .everyone →
        ∀ (run : RunLimits) (inputs : Inputs) (report : Report), inputs.env.Fits →
        inputs.storage.Fits contract →
          inputs.env.sender ≠ inputs.storage.get ⟨owner, none⟩ →
          contract.run run function.name inputs = .ok report → report.result.isSuccess = true →
          ∀ store ∈ report.stores, store.place.field ≠ field := by
  constructor
  · intro field bound verified attends
    obtain ⟨contract, found, keeps⟩ := keeps_of_verified answered verified attends
    refine ⟨contract, found, ?_⟩
    intro function member run inputs report limit env storage deployed starts ran success bounds
    by_contra above
    exact keeps function member nofun run inputs report env storage deployed starts ran success
      ⟨limit, bounds, Nat.lt_of_not_le above⟩
  · intro field owner verified attends
    obtain ⟨contract, found, keeps⟩ := keeps_of_verified answered verified attends
    refine ⟨contract, found, ?_⟩
    intro function member everyone run inputs report env storage stranger ran success store
      listed named
    have entry : function ∈ contract.entryPoints :=
      List.mem_filter.mpr ⟨member, by simp [Function.isEntryPoint, everyone]⟩
    refine keeps function entry (fun _ _ _ => everyone) run inputs report env storage ?_ trivial ran
      success ⟨stranger, store, listed, named⟩
    simp [everyone]

/-- Two fields that are set to the same at deployment keep a bound, and nobody changes them
afterwards. -/
theorem bounds_and_owners_of_deployment :
    let text :=
      "contract A \x7b low: u8 high: u8 owner: address init(n: u8) \x7b self.low = n self.high = n \x7d " ++
        "pass(to: address) \x7b self.owner = to \x7d \x7d"
    let deployment : Inputs := { Inputs.empty with args := [3] }
    let call : Inputs := { Inputs.empty with args := [1], env := Environment.zero.put 7 .sender }
    ∃ contract, (ofText text).contract? "A" = some contract ∧
      (∃ report, contract.run .standard "init" deployment = .ok report ∧
        report.storage.get ⟨"low", none⟩ ≤ report.storage.get ⟨"high", none⟩) ∧
      ∃ report, contract.run .standard "pass" call = .ok report ∧ ∀ store ∈ report.stores,
        store.place.field ≠ "low" := by
  intro text deployment call
  let contract := (ofText text).contracts.head (by decide +kernel)
  let bounded : Property := ⟨"A", .boundedBy "low" (.field "high")⟩
  let owned : Property := ⟨"A", .ownerOnly "low" "owner"⟩
  let init := (contract.function? "init").get (by decide +kernel)
  let pass := (contract.function? "pass").get (by decide +kernel)
  have known : (ofText text).contract? "A" = some contract ∧
      (init ∈ contract.entryPoints ∧ init.name = "init" ∧ init.kind = .init) ∧
      (pass ∈ contract.functions ∧ pass.name = "pass" ∧ pass.kind = .everyone) ∧
      ((contract.run .standard "init" deployment).toOption.any fun report =>
        report.result.isSuccess) = true ∧
      ((contract.run .standard "pass" call).toOption.any fun report => report.result.isSuccess) =
        true := by
    decide +kernel
  obtain ⟨present, ⟨initEntry, initName, atDeployment⟩, ⟨passMember, passName, everyone⟩, deployed,
    called⟩ := known
  clear_value contract init pass
  have verified :
      (ofText text).verify .standard [bounded, owned] =
        .ok [⟨bounded, .verified⟩, ⟨owned, .verified⟩] ∧
      (ofText text).attendsTo .standard bounded = true ∧
      (ofText text).attendsTo .standard owned = true := by
    decide +kernel
  obtain ⟨answered, attendsBounded, attendsOwned⟩ := verified
  obtain ⟨bounds, owners⟩ :=
    bounds_and_owners_of_verified text .standard [bounded, owned] _ answered "A"
  obtain ⟨first, found, keeps⟩ := bounds "low" (.field "high") (by simp [bounded]) attendsBounded
  obtain ⟨second, again, spares⟩ := owners "low" "owner" (by simp [owned]) attendsOwned
  obtain rfl := Option.some.inj (present.symm.trans found)
  obtain rfl := Option.some.inj (present.symm.trans again)
  obtain ⟨start, started, success⟩ := Contract.exists_report deployed
  obtain ⟨later, ran, also⟩ := Contract.exists_report called
  refine ⟨contract, present, ⟨start, started, ?_⟩, later, ran, ?_⟩
  · rw [← initName] at started
    exact keeps init initEntry .standard deployment start _ Environment.fits_zero
      (Storage.fits_nil contract) (fun _ => rfl) (fun running => absurd atDeployment running)
      started success rfl
  · rw [← passName] at ran
    exact spares pass passMember everyone .standard call later
      (Environment.fits_zero.put (by decide)) (Storage.fits_nil contract) (by decide) ran also

/-- A field of which it is verified that nothing computed from a subtraction below zero is written
to it is never given such a value, if the search attends to all that its steps may do. -/
theorem no_underflow_of_verified {name field : String}
    (answered : (ofText text).verify limits properties = .ok results)
    (verified : ⟨⟨name, .noUnderflow field⟩, .verified⟩ ∈ results)
    (attends : (ofText text).attendsTo limits ⟨name, .noUnderflow field⟩ = true) :
    ∃ contract, (ofText text).contract? name = some contract ∧
      ∀ function ∈ contract.entryPoints, ∀ (run : RunLimits) (inputs : Inputs) (report : Report),
        inputs.env.Fits → inputs.storage.Fits contract →
          (function.kind = .init → inputs.storage = []) →
        contract.run run function.name inputs = .ok report → report.result.isSuccess = true →
        ∀ store ∈ report.stores, store.place.field = field → store.underflowed = false := by
  obtain ⟨contract, found, keeps⟩ := keeps_of_verified answered verified attends
  refine ⟨contract, found, ?_⟩
  intro function member run inputs report env storage deployed ran success store listed named
  by_contra marked
  exact keeps function member nofun run inputs report env storage deployed trivial ran success
    ⟨store, listed, named, by simpa using marked⟩

/-- A field that is set through a helper is verified to be given nothing that is computed from a
subtraction below zero. -/
theorem no_underflow_of_helper_call :
    let text :=
      "contract A \x7b x: u8 private put(n: u8) \x7b self.x = n \x7d go(n: u8) \x7b self.put(n) \x7d \x7d"
    let inputs : Inputs := { Inputs.empty with args := [300] }
    ∃ contract, (ofText text).contract? "A" = some contract ∧
      ∃ report, contract.run .standard "go" inputs = .ok report ∧
        ∀ store ∈ report.stores, store.place.field = "x" → store.underflowed = false := by
  intro text inputs
  let contract := (ofText text).contracts.head (by decide +kernel)
  let go := (contract.function? "go").get (by decide +kernel)
  have known : (ofText text).contract? "A" = some contract ∧
      (go ∈ contract.entryPoints ∧ go.name = "go" ∧ go.kind = .everyone) ∧
      ((contract.run .standard "go" inputs).toOption.any fun report => report.result.isSuccess) =
        true := by
    decide +kernel
  obtain ⟨present, ⟨entry, named, everyone⟩, called⟩ := known
  clear_value contract go
  have verified :
      (ofText text).verify .standard [⟨"A", .noUnderflow "x"⟩] =
        .ok [⟨⟨"A", .noUnderflow "x"⟩, .verified⟩] ∧
      (ofText text).attendsTo .standard ⟨"A", .noUnderflow "x"⟩ = true := by
    decide +kernel
  obtain ⟨first, found, spares⟩ := no_underflow_of_verified verified.1 List.mem_cons_self verified.2
  obtain rfl := Option.some.inj (present.symm.trans found)
  obtain ⟨report, ran, success⟩ := Contract.exists_report called
  refine ⟨contract, present, report, ran, ?_⟩
  rw [← named] at ran
  exact spares go entry .standard inputs report Environment.fits_zero (Storage.fits_nil contract)
    (fun _ => rfl) ran success

end ContractSet

end Covenant
