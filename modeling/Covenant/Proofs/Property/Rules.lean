import Covenant.Proofs.Property.Counterexamples
import Covenant.Proofs.Run.Soundness
import Covenant.Proofs.Symbolic.Search

/-!
What is known of a rule at a point of a path is true at the matching point of a run: by how much a
field stays below its bound, who the sender is, and whether anything that was written is tainted.
-/

namespace Covenant

def Rule.isMindful : Rule → Bool
  | .noUnderflow _ => true
  | .boundedBy _ _ | .ownerOnly _ _ => false

namespace Property

variable {contract : Contract} {summaries : Summaries} {field : String}

theorem requireField_eq_ok {declared : Field} (found : requireField contract field = .ok declared) :
    contract.field? field = some declared := by
  unfold requireField at found
  split at found
  · rename_i there
    exact Except.ok.inj found ▸ there
  · simp at found

theorem requireInteger_eq_ok (valid : requireInteger contract field = .ok ()) :
    ∃ declared, contract.field? field = some declared ∧ declared.ty.isMap = false := by
  obtain ⟨declared, found, valid⟩ := chain_eq_ok.mp valid
  refine ⟨declared, requireField_eq_ok found, ?_⟩
  split at valid
  · rename_i integer
    cases same : declared.ty <;> simp_all [Ty.isInteger, Ty.isMap]
  · simp [throw, throwThe, MonadExceptOf.throw] at valid

theorem validate_boundedBy {bound : Bound}
    (valid : validate contract summaries (.boundedBy field bound) = .ok ()) :
    requireInteger contract field = .ok () ∧
      (∀ name, bound = .field name → requireInteger contract name = .ok ()) ∧
      ∀ name, bound = .function name → contract.isBoundFunction summaries name = true := by
  cases bound with
  | field name =>
    obtain ⟨_, first, second⟩ := chain_eq_ok.mp valid
    refine ⟨first, ?_, nofun⟩
    rintro other ⟨⟩
    exact second
  | function name =>
    obtain ⟨_, first, second⟩ := chain_eq_ok.mp valid
    refine ⟨first, nofun, ?_⟩
    rintro other ⟨⟩
    split at second
    · assumption
    · simp [throw, throwThe, MonadExceptOf.throw] at second

theorem validate_ownerOnly {owner : String}
    (valid : validate contract summaries (.ownerOnly field owner) = .ok ()) :
    ∃ declared, contract.field? owner = some declared ∧ declared.ty = .address := by
  obtain ⟨_, _, valid⟩ := chain_eq_ok.mp valid
  obtain ⟨declared, found, valid⟩ := chain_eq_ok.mp valid
  refine ⟨declared, requireField_eq_ok found, ?_⟩
  split at valid
  · rename_i address
    exact eq_of_beq address
  · simp [throw, throwThe, MonadExceptOf.throw] at valid

end Property

theorem Contract.isBoundFunction_eq_true {contract : Contract} {summaries : Summaries}
    {name : String} (bounds : contract.isBoundFunction summaries name = true) :
    ∃ function ty, contract.function? name = some function ∧ function.returns = some ty ∧
      contract.isOpaque summaries name = true := by
  unfold isBoundFunction at bounds
  split at bounds
  · rename_i function found
    simp only [Bool.and_eq_true] at bounds
    obtain ⟨⟨_, returns⟩, reads⟩ := bounds
    cases same : function.returns with
    | none => simp [same] at returns
    | some ty => exact ⟨function, ty, found, same, reads⟩
  · simp at bounds

/-- A bound that is computed from storage is what every call of its function gives there. -/
theorem Course.answers_of_boundValue? {course : Course} (sound : course.Sound)
    {explorer : Explorer} (contract : explorer.contract = course.contract)
    (summaries : explorer.summaries = course.summaries) {limits : RunLimits} {storage : Storage}
    {name : String} {limit : Nat}
    (found : Witness.boundValue? course.contract limits course.setting.env storage
      (.function name) = some limit)
    (fits : storage.Fits course.contract)
    (quiet : explorer.contract.isOpaque explorer.summaries name = true) (state : PathState)
    (held : ∀ (place : StorageKey) (version : Nat), (place.field, version) ∈
      explorer.readVersions state name →
      storage.get place = course.initial.atVersion course.stores place version) :
    course.Answers name [] (explorer.readVersions state name) limit := by
  let inputs : Inputs := { args := [], env := course.setting.env, storage, callsSucceed := true }
  simp only [Witness.boundValue?] at found
  split at found
  · rename_i report ran
    obtain ⟨function, frame, ending, effects, there, count, framed, ended, rfl⟩ :=
      Contract.run_eq_ok_iff.mp ran
    cases ending with
    | reverted message => simp [Contract.report] at found
    | returned cell =>
      obtain ⟨start, begun, typed⟩ := sound.code.start there count fun _ : True => fits
      obtain rfl := Except.ok.inj (framed.symm.trans begun)
      have none : (function.entryCells []).map Cell.value = [] := by simp [Function.entryCells]
      have same : (inputs.setting course.contract limits).contract = course.contract := rfl
      have reads := Explorer.onlyReads_of_isOpaque sound contract summaries same quiet there
        (Function.frame_eq_ok framed).1 typed state
      have ends : Running.EndsWith (inputs.setting course.contract limits)
        ⟨frame, [], Effects.start storage⟩
          (.returned cell) effects := ⟨limits.callDepth, limits.fuel, limits.fuel, ended⟩
      obtain ⟨last, reaches, stops⟩ := ends.stops
      have value : cell.map Cell.value = some limit := found
      have answers : course.Answers name [] (explorer.readVersions state name)
          ((cell.map Cell.value).getD 0) :=
        .returns there same rfl none framed typed reads held reaches stops
      rw [value] at answers
      exact answers
  · simp at found

variable {course : Course} {arena later : Arena} {numbers : SymbolId → Nat} {mindful : Bool}
  {explorer : Explorer} {state next : PathState} {effects : Effects} {field : String}
  {bound : Bound}

theorem PathState.Matches.tells_linear?
    (matched : state.Matches course arena numbers mindful effects) {id : SymbolId} {ty : Ty}
    {value : Nat} (means : arena.Means numbers id ty value) {form : LinearForm}
    (found : state.linear? arena id = some (form, next)) :
    form.eval (fun atom => (numbers atom : Int)) = value ∧
      next.Matches course arena numbers mindful effects := by
  rw [← means.value]
  exact matched.linear? found means.faithful.linear

theorem PathState.Matches.event_of_store
    (matched : state.Matches course arena numbers mindful effects) {store : StoreRecord}
    (member : store ∈ effects.stores) :
    ∃ event ∈ state.writes, event.Matches course arena numbers mindful store := by
  have writes := matched.writes
  revert writes member
  generalize state.writes = events
  generalize effects.stores = stores
  intro member writes
  induction writes with
  | nil => simp at member
  | @cons event first _ _ here _ ih =>
    rcases List.mem_cons.mp member with rfl | later
    · exact ⟨event, List.mem_cons_self, here⟩
    · obtain ⟨other, listed, same⟩ := ih later
      exact ⟨other, List.mem_cons_of_mem _ listed, same⟩

namespace Explorer

def limitValue (explorer : Explorer) (arena : Arena) (state : PathState) :
    Bound → Except Halt (SymbolId × Arena)
  | .field name => explorer.fieldValue arena state name none
  | .function name => explorer.callValue arena state name []

theorem stores_limitValue (ordered : arena.Scoped) (within : state.Within arena) {id : SymbolId}
    (found : explorer.limitValue arena state bound = .ok (id, later)) : arena.Stores later id := by
  cases bound with
  | field name =>
    have keyless : ∀ id ∈ (none : Option SymbolId), id < arena.symbols.size := by simp
    exact stores_fieldValue ordered within keyless found
  | function name =>
    have argless : ∀ id ∈ ([] : List SymbolId), id < arena.symbols.size := by simp
    exact stores_callValue ordered argless found

/-- The steps of finding out by how much a field stays below its bound. -/
theorem margin?_cases {answer : Option (LinearForm × PathState)} (ordered : arena.Scoped)
    (within : state.Within arena)
    (found : explorer.margin? arena state field bound = (answer, later)) :
    arena.Extends later ∧ later.Scoped ∧ ∀ form next, answer = some (form, next) →
      ∃ value middle limit valueForm between limitForm,
        explorer.fieldValue arena state field none = .ok (value, middle) ∧
        explorer.limitValue middle state bound = .ok (limit, later) ∧
        state.linear? later value = some (valueForm, between) ∧ between.linear? later limit =
          some (limitForm, next) ∧
        limitForm.sub? valueForm = some form := by
  unfold margin? at found
  cases value : explorer.fieldValue arena state field none with
  | error halt =>
    rw [value] at found
    obtain ⟨rfl, rfl⟩ := Prod.mk.inj found
    exact ⟨.refl arena, ordered, nofun⟩
  | ok read =>
    obtain ⟨id, middle⟩ := read
    have first := stores_fieldValue ordered within (by simp) value
    rw [value] at found
    cases limit : explorer.limitValue middle state bound with
    | error halt =>
      have stops : (none, middle) = (answer, later) := by
        cases bound <;>
          · simp only [limitValue] at limit
            simpa only [limit] using found
      obtain ⟨rfl, rfl⟩ := Prod.mk.inj stops
      exact ⟨first.grown, first.ordered, nofun⟩
    | ok read =>
      obtain ⟨other, last⟩ := read
      have second := stores_limitValue first.ordered (within.mono first.grown) limit
      have told : last = later ∧ ∀ form next, answer = some (form, next) →
        ∃ valueForm between limitForm,
          state.linear? later id = some (valueForm, between) ∧ between.linear? later other =
            some (limitForm, next) ∧
            limitForm.sub? valueForm = some form := by
        cases bound <;>
          · simp only [limitValue] at limit
            simp only [limit] at found
            obtain ⟨made, rfl⟩ := Prod.mk.inj found
            refine ⟨rfl, fun form next same => ?_⟩
            rw [same] at made
            simp only [Option.bind_eq_bind, Option.bind_eq_some_iff, Option.pure_def,
              Option.some.injEq] at made
            obtain ⟨⟨valueForm, between⟩, held, ⟨limitForm, after⟩, above, difference, apart,
              same⟩ := made
            obtain ⟨rfl, rfl⟩ := Prod.mk.inj same
            exact ⟨valueForm, between, limitForm, held, above, apart⟩
      obtain ⟨rfl, steps⟩ := told
      refine ⟨first.grown.trans second.grown, second.ordered, fun form next same => ?_⟩
      obtain ⟨valueForm, between, limitForm, held, above, apart⟩ := steps form next same
      exact ⟨id, middle, other, valueForm, between, limitForm, rfl, limit, held, above, apart⟩

section Margins

variable (sound : course.Sound) (contract : explorer.contract = course.contract)
  (summaries : explorer.summaries = course.summaries)
  (matched : state.Matches course arena numbers false effects)

include sound contract in
theorem means_integer (ordered : arena.Scoped) (within : state.Within arena)
    (matched : state.Matches course arena numbers false effects)
    (valid : Property.requireInteger explorer.contract field = .ok ()) {id : SymbolId}
    (found : explorer.fieldValue arena state field none = .ok (id, later))
    (respects : later.Respects course.valuation numbers) :
    ∃ ty, later.Means numbers id ty (effects.storage.get ⟨field, none⟩) := by
  obtain ⟨declared, there, scalar⟩ := Property.requireInteger_eq_ok valid
  have known : course.declared.field? field = some declared.ty := by
    rw [sound.code.fields, ← contract, there]
    rfl
  have describes := describes_fieldValue sound contract ordered within matched known
    (by simp [scalar]) (by simp) found respects (by simp)
  exact ⟨_, describes.means⟩

include sound contract summaries in
theorem means_limitValue {limits : RunLimits} {limit : Nat} (ordered : arena.Scoped)
    (within : state.Within arena) (matched : state.Matches course arena numbers false effects)
    (fits : effects.storage.Fits course.contract)
    (valid : Property.validate explorer.contract explorer.summaries
      (.boundedBy field bound) = .ok ())
    {id : SymbolId} (found : explorer.limitValue arena state bound = .ok (id, later))
    (respects : later.Respects course.valuation numbers)
    (bounds : Witness.boundValue? course.contract limits course.setting.env effects.storage bound =
      some limit) :
    ∃ ty, later.Means numbers id ty limit := by
  obtain ⟨_, ofField, ofFunction⟩ := Property.validate_boundedBy valid
  cases bound with
  | field name =>
    obtain rfl := Option.some.inj bounds
    exact means_integer sound contract ordered within matched (ofField name rfl) found respects
  | function name =>
    obtain ⟨function, ty, there, returns, reads⟩ :=
      Contract.isBoundFunction_eq_true (ofFunction name rfl)
    have answers := Course.answers_of_boundValue? sound contract summaries bounds fits reads state
      fun place version member => get_eq_atVersion matched member
    have argless : ∀ id ∈ ([] : List SymbolId), id < arena.symbols.size := by simp
    have means := means_callValue sound contract ordered argless ty
      (contract ▸ there) returns found respects
    rw [List.map_nil, Course.call_eq answers] at means
    exact ⟨ty, means⟩

include sound contract summaries in
/-- The margin that is found is that of the run. -/
theorem eval_margin? {limits : RunLimits} {limit : Nat} (ordered : arena.Scoped)
    (within : state.Within arena) (matched : state.Matches course arena numbers false effects)
    (fits : effects.storage.Fits course.contract)
    (valid : Property.validate explorer.contract explorer.summaries
      (.boundedBy field bound) = .ok ())
    {form : LinearForm}
    (found : explorer.margin? arena state field bound = (some (form, next), later))
    (respects : later.Respects course.valuation numbers)
    (bounds : Witness.boundValue? course.contract limits course.setting.env effects.storage bound =
      some limit) :
    form.eval (fun atom => (numbers atom : Int)) = limit - effects.storage.get ⟨field, none⟩ ∧
      next.Matches course later numbers false effects := by
  obtain ⟨_, _, steps⟩ := margin?_cases ordered within found
  obtain ⟨value, middle, upper, valueForm, between, limitForm, read, above, held, limited, apart⟩ :=
    steps form next rfl
  have first := stores_fieldValue ordered within (by simp) read
  have second := stores_limitValue first.ordered (within.mono first.grown) above
  have now := matched.mono ordered first.grown
  obtain ⟨_, valueMeans⟩ := means_integer sound contract ordered within matched
    (Property.validate_boundedBy valid).1 read (respects.of_extends first.ordered second.grown)
  obtain ⟨_, limitMeans⟩ := means_limitValue sound contract summaries first.ordered
    (within.mono first.grown) now fits valid above respects bounds
  obtain ⟨valueTold, kept⟩ := (now.mono first.ordered second.grown).tells_linear?
    (valueMeans.mono first.ordered second.grown) held
  obtain ⟨limitTold, last⟩ := kept.tells_linear? limitMeans limited
  exact ⟨by rw [LinearForm.eval_sub? _ apart, valueTold, limitTold], last⟩

end Margins

/-! Assuming a rule. -/

theorem assumeRule_boundedBy
    (assumed : explorer.assumeRule arena state (.boundedBy field bound) = .ok (next, later)) :
    ∃ answer, explorer.margin? arena state field bound = (answer, later) ∧
      ((answer = none ∧ next = state) ∨
        ∃ form middle mayHold, answer = some (form, middle) ∧ middle.assume ⟨form, []⟩ =
          .ok (next, mayHold)) := by
  cases margin : explorer.margin? arena state field bound with
  | mk answer last =>
    simp only [assumeRule, margin] at assumed
    cases answer with
    | none =>
      obtain ⟨rfl, rfl⟩ := Prod.mk.inj (Except.ok.inj assumed)
      exact ⟨none, rfl, .inl ⟨rfl, rfl⟩⟩
    | some found =>
      obtain ⟨form, middle⟩ := found
      obtain ⟨⟨after, mayHold⟩, supposed, assumed⟩ := chain_eq_ok.mp assumed
      obtain ⟨rfl, rfl⟩ := Prod.mk.inj (Except.ok.inj assumed)
      exact ⟨_, rfl, .inr ⟨form, middle, mayHold, rfl, supposed⟩⟩

theorem grows_assumeRule {rule : Rule} (ordered : arena.Scoped) (within : state.Within arena)
    (assumed : explorer.assumeRule arena state rule = .ok (next, later)) :
    arena.Extends later ∧ later.Scoped ∧ next.writes = state.writes := by
  cases rule with
  | boundedBy field bound =>
    obtain ⟨answer, margin, effect⟩ := assumeRule_boundedBy assumed
    obtain ⟨grown, kept, steps⟩ := margin?_cases ordered within margin
    refine ⟨grown, kept, ?_⟩
    rcases effect with ⟨_, rfl⟩ | ⟨form, middle, mayHold, rfl, supposed⟩
    · rfl
    · obtain ⟨_, _, _, _, between, _, _, _, first, second, _⟩ := steps form middle rfl
      rw [PathState.writes_assume supposed, PathState.writes_linear? second,
        PathState.writes_linear? first]
  | noUnderflow field | ownerOnly field owner =>
    obtain ⟨rfl, rfl⟩ := Prod.mk.inj (Except.ok.inj assumed)
    exact ⟨.refl _, ordered, rfl⟩

/-- A rule that holds in the storage of a run may be assumed. -/
theorem matches_assumeRule {rule : Rule} {limits : RunLimits} (sound : course.Sound)
    (contract : explorer.contract = course.contract)
    (summaries : explorer.summaries = course.summaries) (ordered : arena.Scoped)
    (within : state.Within arena)
    (matched : state.Matches course arena numbers rule.isMindful effects)
    (fits : effects.storage.Fits course.contract)
    (valid : Property.validate explorer.contract explorer.summaries rule = .ok ())
    (holds : ∀ field bound, rule = .boundedBy field bound → ∃ limit,
      Witness.boundValue? course.contract limits course.setting.env effects.storage bound =
        some limit ∧
        effects.storage.get ⟨field, none⟩ ≤ limit)
    (assumed : explorer.assumeRule arena state rule = .ok (next, later))
    (respects : later.Respects course.valuation numbers) :
    next.Matches course later numbers rule.isMindful effects := by
  obtain ⟨grown, _, _⟩ := grows_assumeRule ordered within assumed
  have still := matched.mono ordered grown
  cases rule with
  | boundedBy field bound =>
    obtain ⟨limit, bounds, below⟩ := holds field bound rfl
    obtain ⟨answer, margin, effect⟩ := assumeRule_boundedBy assumed
    rcases effect with ⟨_, rfl⟩ | ⟨form, middle, mayHold, rfl, supposed⟩
    · exact still
    · obtain ⟨value, kept⟩ :=
        eval_margin? sound contract summaries ordered within matched fits valid margin
          respects bounds
      have positive : RangedForm.Holds numbers ⟨form, []⟩ := by
        refine ⟨?_, fun atom member => by simp at member⟩
        unfold Constraints.Holds
        rw [value]
        omega
      exact (kept.assume positive supposed).2
  | noUnderflow field | ownerOnly field owner =>
    obtain ⟨rfl, rfl⟩ := Prod.mk.inj (Except.ok.inj assumed)
    exact still

/-! The ends of paths. -/

theorem isKnown_eq_true {goal : Option LinearForm} (known : isKnown state goal = .ok true) :
    ∃ form, goal = some form ∧ state.constraints.entails? form = some true := by
  cases goal with
  | none => simp [isKnown] at known
  | some form =>
    simp only [isKnown, Halt.orOverflow] at known
    split at known
    · rename_i answer decided
      rw [Except.ok.inj known] at decided
      exact ⟨form, rfl, decided⟩
    · simp at known

theorem nonneg_of_isKnown (matched : state.Matches course arena numbers mindful effects)
    {goal : Option LinearForm} (known : isKnown state goal = .ok true) :
    ∃ form, goal = some form ∧ 0 ≤ form.eval (fun atom => (numbers atom : Int)) := by
  obtain ⟨form, there, entailed⟩ := isKnown_eq_true known
  exact ⟨form, there, Constraints.holds_of_entails? entailed matched.satisfied⟩

def FindsOwner (explorer : Explorer) (arena later : Arena) (state : PathState) (owner : String) :
    Prop :=
  ∃ declared holder middle sender senderForm between holderForm last,
    explorer.contract.field? owner = some declared ∧
    arena.intern (.field owner none 0) declared.ty = (holder, middle) ∧
    middle.intern (.env .sender) .address = (sender, later) ∧ state.linear? later sender =
      some (senderForm, between) ∧
    between.linear? later holder = some (holderForm, last) ∧
    isKnown last (senderForm.sub? holderForm) = .ok true ∧
    isKnown last (holderForm.sub? senderForm) = .ok true

theorem senderIsOwner_cases {owner : String} {known : Bool} (ordered : arena.Scoped)
    (found : explorer.senderIsOwner arena state owner = .ok (known, later)) :
    arena.Extends later ∧ later.Scoped ∧
      (known = true → explorer.FindsOwner arena later state owner) := by
  unfold senderIsOwner at found
  cases declared : explorer.contract.field? owner with
  | none =>
    rw [declared] at found
    obtain ⟨rfl, rfl⟩ := Prod.mk.inj (Except.ok.inj found)
    exact ⟨.refl arena, ordered, nofun⟩
  | some field =>
    rw [declared] at found
    cases first : arena.intern (.field owner none 0) field.ty with
    | mk holder middle =>
      have keyless : ∀ part ∈ Arena.references (.field owner none 0),
          part < arena.symbols.size := by
        simp [Arena.references]
      have holderStored := Arena.stores_intern ordered keyless field.ty
      rw [first] at holderStored
      cases second : middle.intern (.env .sender) .address with
      | mk sender last =>
        have plain : ∀ part ∈ Arena.references (.env .sender), part < middle.symbols.size := by
          simp [Arena.references]
        have senderStored := Arena.stores_intern holderStored.ordered plain .address
        rw [second] at senderStored
        have whole := holderStored.grown.trans senderStored.grown
        simp only [first, second] at found
        split at found
        · obtain ⟨rfl, rfl⟩ := Prod.mk.inj (Except.ok.inj found)
          exact ⟨whole, senderStored.ordered, nofun⟩
        · rename_i senderForm holderForm after forms
          simp only [Option.bind_eq_bind, Option.bind_eq_some_iff, Option.pure_def,
            Option.some.injEq] at forms
          obtain ⟨⟨_, between⟩, held, ⟨_, _⟩, there, same⟩ := forms
          obtain ⟨rfl, rfl, rfl⟩ := same
          obtain ⟨above, up, found⟩ := chain_eq_ok.mp found
          cases above with
          | false =>
            obtain ⟨rfl, rfl⟩ := Prod.mk.inj (Except.ok.inj found)
            exact ⟨whole, senderStored.ordered, nofun⟩
          | true =>
            obtain ⟨below, down, found⟩ := chain_eq_ok.mp found
            obtain ⟨rfl, rfl⟩ := Prod.mk.inj (Except.ok.inj found)
            refine ⟨whole, senderStored.ordered, ?_⟩
            rintro rfl
            exact ⟨field, holder, middle, sender, _, between, _, _, declared, first, second, held,
              there, up, down⟩

/-- Where the sender is known to be the owner, it is the owner of the start. -/
theorem sender_eq_of_senderIsOwner {owner : String} {declared : Field} (sound : course.Sound)
    (contract : explorer.contract = course.contract) (ordered : arena.Scoped)
    (matched : state.Matches course arena numbers mindful effects)
    (known : explorer.contract.field? owner = some declared) (address : declared.ty = .address)
    (found : explorer.senderIsOwner arena state owner = .ok (true, later))
    (respects : later.Respects course.valuation numbers) :
    course.setting.env.sender = course.initial.get ⟨owner, none⟩ := by
  obtain ⟨grown, kept, finds⟩ := senderIsOwner_cases ordered found
  obtain ⟨other, holder, middle, sender, senderForm, between, holderForm, last, same, first, second,
    held, there, up, down⟩ := finds rfl
  obtain rfl := Option.some.inj (known.symm.trans same)
  have typed : course.declared.field? owner = some .address := by
    rw [sound.code.fields, ← contract, known, ← address]
    rfl
  have inside : ∀ part ∈ Arena.references (.field owner none 0), part < arena.symbols.size := by
    simp [Arena.references]
  have stored := Arena.stores_intern ordered inside declared.ty
  rw [first] at stored
  rw [address] at first
  have further := Arena.extends_of_intern second
  have holderMeans :=
    (Arena.means_given stored.ordered first (respects.of_extends stored.ordered further) rfl
      (Course.field_fits sound typed rfl 0)).mono stored.ordered further
  have senderMeans :=
    Arena.means_given kept second respects rfl (Ty.le_maxValue_iff.mp (sound.env .sender))
  obtain ⟨senderTold, between⟩ := (matched.mono ordered grown).tells_linear? senderMeans held
  obtain ⟨holderTold, after⟩ := between.tells_linear? holderMeans there
  obtain ⟨above, madeAbove, upper⟩ := nonneg_of_isKnown after up
  obtain ⟨below, madeBelow, lower⟩ := nonneg_of_isKnown after down
  rw [LinearForm.eval_sub? _ madeAbove, senderTold, holderTold] at upper
  rw [LinearForm.eval_sub? _ madeBelow, senderTold, holderTold] at lower
  have start : course.initial.atVersion course.stores ⟨owner, none⟩ 0 = course.initial.get
      ⟨owner, none⟩ :=
    Storage.atVersion_zero _ _ _
  simp only [Term.value, Course.valuation, Option.map_none, Environment.get, start] at upper lower
  omega

theorem holdsAtEnd_boundedBy {path : PathEnd} {holds : Bool}
    (found : explorer.holdsAtEnd arena path (.boundedBy field bound) = .ok (holds, later)) :
    ∃ answer, explorer.margin? arena path.state field bound = (answer, later) ∧
      (holds = true → ∃ form middle, answer = some (form, middle) ∧ isKnown middle (some form) =
        .ok true) := by
  cases margin : explorer.margin? arena path.state field bound with
  | mk answer last =>
    simp only [holdsAtEnd, margin] at found
    cases answer with
    | none =>
      obtain ⟨rfl, rfl⟩ := Prod.mk.inj (Except.ok.inj found)
      exact ⟨none, rfl, nofun⟩
    | some told =>
      obtain ⟨form, middle⟩ := told
      obtain ⟨known, decided, found⟩ := chain_eq_ok.mp found
      obtain ⟨rfl, rfl⟩ := Prod.mk.inj (Except.ok.inj found)
      refine ⟨_, rfl, ?_⟩
      rintro rfl
      exact ⟨form, middle, rfl, decided⟩

theorem grows_holdsAtEnd {rule : Rule} {path : PathEnd} {holds : Bool} (ordered : arena.Scoped)
    (within : path.state.Within arena)
    (found : explorer.holdsAtEnd arena path rule = .ok (holds, later)) :
    arena.Extends later ∧ later.Scoped := by
  cases rule with
  | boundedBy field bound =>
    obtain ⟨answer, margin, _⟩ := holdsAtEnd_boundedBy found
    obtain ⟨grown, kept, _⟩ := margin?_cases ordered within margin
    exact ⟨grown, kept⟩
  | noUnderflow field =>
    obtain ⟨_, rfl⟩ := Prod.mk.inj (Except.ok.inj found)
    exact ⟨.refl _, ordered⟩
  | ownerOnly field owner =>
    simp only [holdsAtEnd] at found
    split at found
    · obtain ⟨grown, kept, _⟩ := senderIsOwner_cases ordered found
      exact ⟨grown, kept⟩
    · obtain ⟨_, rfl⟩ := Prod.mk.inj (Except.ok.inj found)
      exact ⟨.refl _, ordered⟩

theorem holdsAtEnd_of_holdsAtEnds {rule : Rule} {paths : List PathEnd} (ordered : arena.Scoped)
    (within : ∀ path ∈ paths, path.state.Within arena)
    (holds : explorer.holdsAtEnds rule arena paths = .ok true) :
    ∃ last, last.Scoped ∧ arena.Extends last ∧ ∀ path ∈ paths, ∃ before after,
      arena.Extends before ∧ before.Scoped ∧
      explorer.holdsAtEnd before path rule = .ok (true, after) ∧ after.Scoped ∧
      after.Extends last := by
  induction paths generalizing arena with
  | nil => exact ⟨arena, ordered, .refl arena, by simp⟩
  | cons path rest ih =>
    obtain ⟨⟨here, middle⟩, found, holds⟩ := chain_eq_ok.mp holds
    obtain ⟨grown, kept⟩ := grows_holdsAtEnd ordered (within path List.mem_cons_self) found
    cases here with
    | false => simp [pure, Except.pure] at holds
    | true =>
      obtain ⟨last, complete, further, all⟩ :=
        ih kept (fun other member => (within other (List.mem_cons_of_mem _ member)).mono grown)
          holds
      refine ⟨last, complete, grown.trans further, fun other member => ?_⟩
      rcases List.mem_cons.mp member with rfl | later
      · exact ⟨arena, middle, .refl arena, ordered, found, kept, further⟩
      · obtain ⟨before, after, extended, scopes, rest⟩ := all other later
        exact ⟨before, after, grown.trans extended, scopes, rest⟩

/-- A run that matches a path does not break a rule that is known to hold at the end of the path. -/
theorem not_breaks_of_holdsAtEnd {rule : Rule} {path : PathEnd} {limits : RunLimits}
    {inputs : Inputs} {cell : Option Cell} (sound : course.Sound)
    (contract : explorer.contract = course.contract)
    (summaries : explorer.summaries = course.summaries) (env : course.setting.env = inputs.env)
    (initial : course.initial = inputs.storage) (ordered : arena.Scoped)
    (within : path.state.Within arena)
    (matched : path.state.Matches course arena numbers rule.isMindful effects)
    (fits : effects.storage.Fits course.contract)
    (valid : Property.validate explorer.contract explorer.summaries rule = .ok ())
    (held : explorer.holdsAtEnd arena path rule = .ok (true, later))
    (respects : later.Respects course.valuation numbers) :
    ¬ (Contract.report inputs.storage (.returned cell) effects).Breaks course.contract limits
      inputs rule := by
  cases rule with
  | boundedBy field bound =>
    rintro ⟨limit, bounds, above⟩
    obtain ⟨answer, margin, finds⟩ := holdsAtEnd_boundedBy held
    obtain ⟨form, middle, rfl, known⟩ := finds rfl
    rw [← env] at bounds
    obtain ⟨value, kept⟩ :=
      eval_margin? sound contract summaries ordered within matched fits valid margin respects bounds
    obtain ⟨_, same, holds⟩ := nonneg_of_isKnown kept known
    rw [← Option.some.inj same, value] at holds
    have exceeded : limit < effects.storage.get ⟨field, none⟩ := above
    omega
  | noUnderflow field =>
    rintro ⟨store, member, named, tainted⟩
    obtain ⟨known, rfl⟩ := Prod.mk.inj (Except.ok.inj held)
    obtain ⟨event, listed, same⟩ := matched.event_of_store (List.mem_reverse.mp member)
    obtain ⟨ty, _, describes⟩ := same.value
    have clean := List.all_eq_true.mp known event (List.mem_reverse.mpr listed)
    have here : event.field = field := by rw [← named, same.place]
    simp [here, describes.tainted rfl tainted] at clean
  | ownerOnly field owner =>
    rintro ⟨stranger, store, member, named⟩
    obtain ⟨event, listed, same⟩ := matched.event_of_store (List.mem_reverse.mp member)
    have written : (path.state.stores.any fun event => event.field == field) = true := by
      refine List.any_eq_true.mpr ⟨event, List.mem_reverse.mpr listed, ?_⟩
      rw [beq_iff_eq, ← named, same.place]
    simp only [holdsAtEnd, written, if_true] at held
    obtain ⟨declared, known, address⟩ := Property.validate_ownerOnly valid
    have owner := sender_eq_of_senderIsOwner sound contract ordered matched known address
      held respects
    rw [env, initial] at owner
    exact stranger owner

end Explorer

end Covenant
