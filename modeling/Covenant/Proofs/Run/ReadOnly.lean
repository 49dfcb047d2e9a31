import Covenant.Proofs.Run.Lockstep
import Covenant.Proofs.Run.Sources
import Covenant.Proofs.Run.Storage

/-!
The writes of a run and what storage holds after them. A place that is not written any more keeps
what it holds, so the number of writes to its field so far tells what it holds.
-/

namespace Covenant

/-! Effects that leave storage as it is. -/

structure Effects.Same (effects later : Effects) : Prop where
  storage : later.storage = effects.storage
  tainted : later.tainted = effects.tainted
  stores : later.stores = effects.stores

namespace Effects.Same

variable {first second third : Effects}

theorem refl (effects : Effects) : effects.Same effects := ⟨rfl, rfl, rfl⟩

theorem trans (left : first.Same second) (right : second.Same third) : first.Same third :=
  ⟨right.storage.trans left.storage, right.tainted.trans left.tainted,
    right.stores.trans left.stores⟩

theorem load (same : first.Same second) (place : StorageKey) :
    second.load place = first.load place := by
  simp only [Effects.load, same.storage, same.tainted]

end Effects.Same

def latest? (stores : List StoreRecord) (place : StorageKey) : Option StoreRecord :=
  stores.find? fun store => store.place == place

def writesTo (stores : List StoreRecord) (field : String) : Nat :=
  stores.countP fun store => store.place.field == field

namespace Storage

def afterWrites (initial : Storage) (stores : List StoreRecord) (place : StorageKey) : Nat :=
  match latest? stores place with
  | some store => store.value
  | none => initial.get place

def atVersion (initial : Storage) : List StoreRecord → StorageKey → Nat → Nat
  | [], place, _ => initial.get place
  | store :: earlier, place, version =>
    if writesTo (store :: earlier) place.field ≤ version then initial.afterWrites
      (store :: earlier) place
    else initial.atVersion earlier place version

variable {initial : Storage} {stores earlier : List StoreRecord} {place : StorageKey}

theorem afterWrites_of_same_version (suffix : earlier <:+ stores)
    (same : writesTo stores place.field = writesTo earlier place.field) :
    initial.afterWrites stores place = initial.afterWrites earlier place := by
  obtain ⟨newer, rfl⟩ := suffix
  have none : writesTo newer place.field = 0 := by
    simp only [writesTo, List.countP_append] at same ⊢
    omega
  have apart : newer.find? (fun store => store.place == place) = .none := by
    rw [List.find?_eq_none]
    intro store member here
    have other := List.countP_eq_zero.mp none store member
    rw [eq_of_beq here] at other
    simp at other
  simp only [afterWrites, latest?, List.find?_append, apart, Option.none_or]

theorem atVersion_eq_afterWrites (suffix : earlier <:+ stores) :
    initial.atVersion stores place (writesTo earlier place.field) =
      initial.afterWrites earlier place := by
  induction stores with
  | nil =>
    obtain rfl := List.suffix_nil.mp suffix
    rfl
  | cons store rest ih =>
    have fewer : writesTo earlier place.field ≤ writesTo (store :: rest) place.field :=
      List.Sublist.countP_le suffix.sublist
    simp only [atVersion]
    split
    · rename_i few
      exact afterWrites_of_same_version suffix (Nat.le_antisymm few fewer)
    · rename_i many
      rcases List.suffix_cons_iff.mp suffix with rfl | later
      · exact absurd (Nat.le_refl _) many
      · exact ih later

theorem atVersion_zero (initial : Storage) (stores : List StoreRecord) (place : StorageKey) :
    initial.atVersion stores place 0 = initial.get place := by
  have none : [] <:+ stores := List.nil_suffix
  have start : initial.atVersion stores place (writesTo [] place.field) =
      initial.afterWrites [] place :=
    atVersion_eq_afterWrites none
  exact start

end Storage

structure Effects.Recorded (initial : Storage) (effects : Effects) : Prop where
  storage : ∀ place, effects.storage.get place = initial.afterWrites effects.stores place
  tainted : ∀ place, place ∈ effects.tainted ↔
    ∃ store, latest? effects.stores place = some store ∧ store.underflowed = true
  distinct : effects.tainted.Nodup

namespace Effects.Recorded

variable {initial : Storage} {effects later : Effects}

theorem start (initial : Storage) : (Effects.start initial).Recorded initial where
  storage := fun _ => rfl
  tainted := by simp [Effects.start, latest?]
  distinct := List.nodup_nil

theorem same (recorded : effects.Recorded initial) (kept : effects.Same later) :
    later.Recorded initial := by
  obtain ⟨storage, tainted, stores⟩ := kept
  constructor
  · rw [storage, stores]
    exact recorded.storage
  · rw [tainted, stores]
    exact recorded.tainted
  · rw [tainted]
    exact recorded.distinct

theorem store (recorded : effects.Recorded initial) (place : StorageKey) (cell : Cell) :
    (effects.store place cell).Recorded initial where
  storage := by
    intro other
    by_cases here : other = place
    · subst here
      simp [Effects.store, Storage.get_put_same, Storage.afterWrites, latest?]
    · have apart : (place == other) = false := beq_eq_false_iff_ne.mpr (Ne.symm here)
      simp only [Effects.store, Storage.get_put_other here, recorded.storage, Storage.afterWrites,
        latest?, List.find?_cons, apart]
  tainted := by
    intro other
    have rest := recorded.tainted other
    by_cases here : other = place
    · subst here
      simp only [Effects.store, latest?, List.find?_cons, beq_self_eq_true, Option.some.injEq,
        exists_eq_left', List.contains_eq_mem, decide_eq_true_eq]
      split
      · rename_i tainted
        split <;> simp_all
      · rename_i clean
        simp only [clean, Bool.false_eq_true, iff_false]
        exact recorded.distinct.not_mem_erase
    · have apart : (place == other) = false := beq_eq_false_iff_ne.mpr (Ne.symm here)
      simp only [Effects.store, latest?, List.find?_cons, apart, List.contains_eq_mem,
        decide_eq_true_eq]
      simp only [latest?] at rest
      rw [← rest]
      split
      · split
        · rfl
        · simp [here]
      · exact List.mem_erase_of_ne here
  distinct := by
    simp only [Effects.store, List.contains_eq_mem, decide_eq_true_eq]
    split
    · split
      · exact recorded.distinct
      · rename_i fresh
        exact List.nodup_cons.mpr ⟨fresh, recorded.distinct⟩
    · exact recorded.distinct.erase _

theorem load (recorded : effects.Recorded initial) (place : StorageKey) :
    effects.load place = match latest? effects.stores place with
      | some store => ⟨store.value, store.underflowed⟩
      | none => .clean (initial.get place) := by
  have value := recorded.storage place
  have taint := recorded.tainted place
  simp only [Effects.load, value, Storage.afterWrites, List.contains_eq_mem]
  cases found : latest? effects.stores place with
  | none =>
    have clean : place ∉ effects.tainted := by simp [taint, found]
    simp [clean, Cell.clean]
  | some store =>
    rw [found] at taint
    have same : decide (place ∈ effects.tainted) = store.underflowed := by
      rw [Bool.eq_iff_iff, decide_eq_true_iff, taint]
      simp
    simp [same]

end Effects.Recorded

/-! What a step does to storage. -/

theorem Frame.Does.stored {setting : Setting} {effects later : Effects} {frame after : Frame}
    {location : Location} {instruction : Instruction}
    (does : frame.Does setting effects location instruction after later) :
    effects.Same later ∨ ∃ field key value place cell, instruction = .storeField field key value ∧
      frame.place field key = .ok place ∧ frame.get? value = .ok cell ∧
      (effects.store place cell).Same later := by
  cases does with
  | storeField found held => exact .inr ⟨_, _, _, _, _, rfl, found, held, rfl, rfl, rfl⟩
  | _ => exact .inl ⟨rfl, rfl, rfl⟩

theorem Frame.Goes.same {effects later : Effects} {frame : Frame} {location : Location}
    {terminator : Terminator} {target : BlockId}
    (goes : frame.Goes effects location terminator target later) : effects.Same later := by
  obtain ⟨trace, rfl⟩ := goes.effects_eq
  exact ⟨rfl, rfl, rfl⟩

theorem Frame.Yields.same {effects later : Effects} {frame : Frame} {location : Location}
    {terminator : Terminator} {value : Option Cell}
    (yields : frame.Yields effects location terminator value later) : effects.Same later := by
  obtain ⟨trace, rfl⟩ := yields.effects_eq
  exact ⟨rfl, rfl, rfl⟩

namespace Running

variable {setting : Setting} {state next last : Running} {initial : Storage}

theorem Move.stored (move : Move setting state next) :
    state.effects.Same next.effects ∨ ∃ place cell,
      (state.effects.store place cell).Same next.effects := by
  cases move with
  | instruct _ does =>
    exact does.stored.imp_right fun ⟨_, _, _, place, cell, _, _, _, same⟩ => ⟨place, cell, same⟩
  | call => exact .inl ⟨rfl, rfl, rfl⟩
  | goto _ goes _ => exact .inl goes.same
  | giveBack _ yields _ => exact .inl yields.same

theorem Move.recorded (move : Move setting state next) (recorded : state.effects.Recorded initial) :
    next.effects.Recorded initial := by
  rcases move.stored with same | ⟨place, cell, same⟩
  · exact recorded.same same
  · exact (recorded.store place cell).same same

theorem Move.stores_suffix (move : Move setting state next) :
    state.effects.stores <:+ next.effects.stores := by
  rcases move.stored with same | ⟨place, cell, same⟩
  · exact same.stores ▸ List.suffix_refl _
  · rw [same.stores]
    exact List.suffix_cons _ _

theorem Reaches.recorded (reaches : Reaches setting state last)
    (recorded : state.effects.Recorded initial) :
    last.effects.Recorded initial := by
  induction reaches with
  | refl => exact recorded
  | step leads _ ih => exact ih (leads.move.recorded recorded)

theorem Reaches.stores_suffix (reaches : Reaches setting state last) :
    state.effects.stores <:+ last.effects.stores := by
  induction reaches with
  | refl => exact List.suffix_refl _
  | step leads _ ih => exact leads.move.stores_suffix.trans ih

end Running

/-!
Calls that only read. Such a call leaves storage as it is, and what it returns depends on its
arguments, on the surroundings and on the fields that it reads: two calls that agree on these go
side by side and return the same.
-/

structure Frame.Twin (frame other : Frame) : Prop where
  function : other.function = frame.function
  block : other.block = frame.block
  pending : other.pending = frame.pending
  values : ∀ value, other.valueOf value = frame.valueOf value
  locals : other.locals.map Cell.value = frame.locals.map Cell.value

namespace Running

structure OnlyReads (setting : Setting) (reads : String → Prop) (start : Running) : Prop where
  stores : ∀ state, Reaches setting start state → ∀ field key value,
    ¬ state.Runs (.storeField field key value)
  calls : ∀ state, Reaches setting start state → ∀ dest kind target amount,
    ¬ state.Runs (.externalCall dest kind target amount)
  loads : ∀ state, Reaches setting start state → ∀ dest field key,
    state.Runs (.loadField dest field key) → reads field

structure Twin (reads : String → Prop) (state other : Running) : Prop where
  frame : state.frame.Twin other.frame
  callers : List.Forall₂ (fun caller waiting => waiting.dest = caller.dest ∧
    caller.frame.Twin waiting.frame) state.callers other.callers
  storage : ∀ place : StorageKey, reads place.field → other.effects.storage.get place =
    state.effects.storage.get place

end Running

namespace Frame.Twin

variable {frame other : Frame}

theorem past (twin : frame.Twin other) (rest : List (Located Instruction)) :
    (frame.past rest).Twin (other.past rest) :=
  ⟨twin.function, twin.block, rfl, twin.values, twin.locals⟩

theorem started (twin : frame.Twin other) (block : BasicBlock) :
    (frame.started block).Twin (other.started block) :=
  ⟨twin.function, rfl, rfl, fun _ => rfl, twin.locals⟩

theorem define (twin : frame.Twin other) {dest : ValueId} {cell held : Cell}
    (same : held.value = cell.value) :
    (frame.define dest cell).Twin (other.define dest held) := by
  refine ⟨twin.function, twin.block, twin.pending, fun value => ?_, twin.locals⟩
  rw [valueOf_define, valueOf_define, same, twin.values]

theorem setLocal (twin : frame.Twin other) (slot : LocalId) {cell held : Cell}
    (same : held.value = cell.value) :
    Frame.Twin { frame with locals := frame.locals.set slot cell }
      { other with locals := other.locals.set slot held } :=
  { twin with locals := by rw [List.map_set, List.map_set, twin.locals, same] }

theorem get?_eq (twin : frame.Twin other) {value : ValueId} {cell held : Cell}
    (here : frame.get? value = .ok cell) (there : other.get? value = .ok held) :
    held.value = cell.value := by
  rw [← valueOf_eq here, ← valueOf_eq there]
  exact twin.values value

theorem place_eq (twin : frame.Twin other) {field : String} {key : Option ValueId}
    {here there : StorageKey} (found : frame.place field key = .ok here)
    (known : other.place field key = .ok there) : there = here := by
  rw [Frame.place_eq found, Frame.place_eq known, show other.valueOf =
    frame.valueOf from funext twin.values]

theorem passes (twin : frame.Twin other) {args : List ValueId} {cells others : List Cell}
    (here : args.mapM frame.get? = .ok cells) (there : args.mapM other.get? = .ok others) :
    others.map Cell.value = cells.map Cell.value := by
  rw [mapM_valueOf here, mapM_valueOf there, show other.valueOf =
    frame.valueOf from funext twin.values]

/-- An instruction that neither writes to storage nor calls anybody outside the contract keeps
frames twins. -/
theorem does (twin : frame.Twin other) {setting others : Setting}
    {effects later different latest : Effects} {location : Location} {node : Instruction}
    {after ahead : Frame} (left : frame.Does setting effects location node after later)
    (right : other.Does others different location node ahead latest)
    (env : others.env = setting.env)
    (calls : ∀ dest kind target amount, node ≠ .externalCall dest kind target amount)
    (loads : ∀ dest field key place, node = .loadField dest field key → place.field = field →
      different.storage.get place = effects.storage.get place) : after.Twin ahead := by
  cases left with
  | const dest value ty =>
    cases right
    exact twin.define rfl
  | env dest var =>
    cases right
    exact twin.define (by rw [env])
  | @loadLocal dest slot cell held =>
    cases right with
    | @loadLocal _ _ found also =>
      have same := congrArg (fun locals => locals[slot]?) twin.locals
      simp only [List.getElem?_map, held, also, Option.map_some, Option.some.injEq] at same
      exact twin.define same
  | storeLocal held low =>
    cases right with
    | storeLocal found high => exact twin.setLocal _ (twin.get?_eq held found)
  | @loadField dest field key place found =>
    cases right with
    | loadField there =>
      obtain rfl := twin.place_eq found there
      exact twin.define (loads dest field key _ rfl (by rw [Frame.place_eq found]))
  | storeField =>
    cases right
    exact twin
  | @binary dest op ty lhs rhs first second value firstHeld secondHeld computed =>
    cases right with
    | binary firstFound secondFound again =>
      refine twin.define ?_
      rw [twin.get?_eq firstHeld firstFound, twin.get?_eq secondHeld secondFound, computed] at again
      exact (Option.some.inj again).symm
  | not held =>
    cases right with
    | not found =>
      refine twin.define ?_
      rw [twin.get?_eq held found]
  | externalCall => exact absurd rfl (calls _ _ _ _)
  | emit =>
    cases right
    exact twin

end Frame.Twin

theorem Function.twin_of_frame {function : Function} {cells others : List Cell}
    {frame other : Frame} (framed : function.frame cells = .ok frame)
    (again : function.frame others = .ok other)
    (same : others.map Cell.value = cells.map Cell.value) : frame.Twin other := by
  unfold Function.frame at framed again
  split at framed
  · rename_i block found
    rw [found] at again
    obtain rfl := Except.ok.inj framed
    obtain rfl := Except.ok.inj again
    have count : others.length = cells.length := by
      rw [← List.length_map (f := Cell.value), same, List.length_map]
    refine ⟨rfl, rfl, rfl, fun _ => rfl, ?_⟩
    simp only [List.map_append, List.map_take, same, count]
  · simp at framed

theorem Caller.receive_twin {caller waiting : Caller} (dest : waiting.dest = caller.dest)
    (twin : caller.frame.Twin waiting.frame) {value given : Option Cell}
    (same : given.map Cell.value = value.map Cell.value) :
    (caller.receive value).Twin (waiting.receive given) := by
  unfold Caller.receive
  rw [dest]
  cases caller.dest with
  | none => exact twin
  | some id =>
    refine twin.define ?_
    cases value <;> cases given <;> simp_all

namespace Running

variable {reads : String → Prop} {setting others : Setting}
  {state next other following last final : Running} {value given : Option Cell}
  {effects latest : Effects}

theorem OnlyReads.step (quiet : OnlyReads setting reads state) (leads : Leads setting state next) :
    OnlyReads setting reads next where
  stores := fun further reaches => quiet.stores further (.step leads reaches)
  calls := fun further reaches => quiet.calls further (.step leads reaches)
  loads := fun further reaches => quiet.loads further (.step leads reaches)

theorem OnlyReads.mono {more : String → Prop} (quiet : OnlyReads setting reads state)
    (implies : ∀ field, reads field → more field) : OnlyReads setting more state :=
  { quiet with
    loads := fun further reaches dest field key runs =>
      implies field (quiet.loads further reaches dest field key runs) }

theorem OnlyReads.same (quiet : OnlyReads setting reads state) (leads : Leads setting state next) :
    state.effects.Same next.effects := by
  cases leads.move with
  | @instruct instruction rest frame effects pending does =>
    obtain ⟨node, location⟩ := instruction
    rcases does.stored with same | ⟨field, key, value, _, _, rfl, _⟩
    · exact same
    · exact absurd ⟨location, rest, pending⟩ (quiet.stores state (.refl state) field key value)
  | call => exact ⟨rfl, rfl, rfl⟩
  | goto _ goes _ => exact goes.same
  | giveBack _ yields _ => exact yields.same

theorem OnlyReads.same_of_reaches (quiet : OnlyReads setting reads state)
    (reaches : Reaches setting state last) :
    state.effects.Same last.effects := by
  induction reaches with
  | refl => exact .refl _
  | step leads _ ih => exact (quiet.same leads).trans (ih (quiet.step leads))

theorem yields_twin {frame twin : Frame} (alike : frame.Twin twin)
    {effects latest before later : Effects} {location elsewhere : Location} {node : Terminator}
    (left : frame.Yields before location node value effects)
    (right : twin.Yields later elsewhere node given latest) :
    given.map Cell.value = value.map Cell.value := by
  cases left with
  | nothing =>
    cases right
    rfl
  | value held =>
    cases right with
    | value found => rw [Option.map_some, Option.map_some, alike.get?_eq held found]

theorem not_goes_of_yields {frame twin : Frame} {before later : Effects}
    {location elsewhere : Location} {node : Terminator} {target : BlockId}
    (yields : frame.Yields before location node value effects) :
    ¬ twin.Goes later elsewhere node target latest := by
  intro goes
  cases goes <;> cases yields

theorem Twin.move (twin : Twin reads state other) (contract : others.contract = setting.contract)
    (env : others.env = setting.env) (quiet : OnlyReads setting reads state)
    (left : Leads setting state next) (right : Move others other following)
    (same : other.effects.Same following.effects) : Twin reads next following := by
  have storage : ∀ place : StorageKey, reads place.field →
      following.effects.storage.get place = next.effects.storage.get place := by
    intro place listed
    rw [same.storage, (quiet.same left).storage]
    exact twin.storage place listed
  have place := twin.frame.pending
  have block := twin.frame.block
  cases left.move with
  | @instruct instruction rest frame effects pending does =>
    rw [pending] at place
    cases right with
    | @instruct also further ahead latest reached again =>
      obtain ⟨rfl, rfl⟩ := List.cons.inj (reached.symm.trans place)
      refine ⟨(twin.frame.past _).does does again env ?_ ?_, twin.callers, storage⟩
      · intro dest kind target amount calls
        exact quiet.calls state (.refl state) dest kind target amount
          ⟨also.location, further, by rw [pending, ← calls]⟩
      · rintro dest field key place loads rfl
        exact twin.storage place
          (quiet.loads state (.refl state) dest _ key ⟨also.location, further, by
          rw [pending, ← loads]⟩)
    | call reached =>
      obtain ⟨rfl, rfl⟩ := List.cons.inj (reached.symm.trans place)
      cases does
    | goto reached => simp [reached] at place
    | giveBack reached => simp [reached] at place
  | call pending found listed framed =>
    rw [pending] at place
    cases right with
    | instruct reached does =>
      obtain ⟨rfl, rfl⟩ := List.cons.inj (reached.symm.trans place)
      cases does
    | call reached again passed entered =>
      obtain ⟨node, rfl⟩ := List.cons.inj (reached.symm.trans place)
      obtain ⟨⟨rfl, rfl, rfl⟩, rfl⟩ : (_ ∧ _ ∧ _) ∧ _ := by simpa using node
      rw [contract, found] at again
      obtain rfl := Option.some.inj again
      have passes := (twin.frame.past _).passes listed passed
      exact ⟨Function.twin_of_frame framed entered passes,
        .cons ⟨rfl, twin.frame.past _⟩ twin.callers, storage⟩
    | goto reached => simp [reached] at place
    | giveBack reached => simp [reached] at place
  | goto pending goes found =>
    rw [pending] at place
    cases right with
    | instruct reached => simp [reached] at place
    | call reached => simp [reached] at place
    | goto reached again entered =>
      rw [block] at again
      have there := goes_eq goes again fun condition _ => by rw [twin.frame.values]
      rw [twin.frame.function, there, found] at entered
      obtain rfl := Option.some.inj entered
      exact ⟨twin.frame.started _, twin.callers, storage⟩
    | giveBack reached yields =>
      rw [block] at yields
      exact absurd goes (not_goes_of_yields yields)
  | giveBack pending yields waiting =>
    rw [pending] at place
    cases right with
    | instruct reached => simp [reached] at place
    | call reached => simp [reached] at place
    | goto reached goes =>
      rw [block] at goes
      exact absurd goes (not_goes_of_yields yields)
    | giveBack reached again also =>
      rw [block] at again
      have callers := twin.callers
      rw [waiting, also] at callers
      cases callers with
      | cons first further =>
        exact ⟨Caller.receive_twin first.1 first.2 (yields_twin twin.frame yields again),
          further, storage⟩

theorem Twin.stops (twin : Twin reads state other) (stops : state.Stops value effects)
    (right : Reaches others other final) (ends : final.Stops given latest) :
    given.map Cell.value = value.map Cell.value := by
  have place := twin.frame.pending.trans stops.pending
  have alone := twin.callers
  rw [stops.callers, List.forall₂_nil_left_iff] at alone
  have yields := stops.yields
  rw [← twin.frame.block] at yields
  cases right with
  | refl =>
    have again := ends.yields
    exact yields_twin twin.frame yields again
  | step leads =>
    cases leads.move with
    | instruct reached => simp [reached] at place
    | call reached => simp [reached] at place
    | goto _ goes => exact absurd goes (not_goes_of_yields yields)
    | giveBack _ _ waiting => simp [waiting] at alone

/-- Calls that only read return the same if they start as twins. -/
theorem Twin.returns (twin : Twin reads state other)
    (contract : others.contract = setting.contract) (env : others.env = setting.env)
    (quiet : OnlyReads setting reads state) (left : Reaches setting state last)
    (stops : last.Stops value effects) (right : Reaches others other final)
    (ends : final.Stops given latest) (still : OnlyReads others reads other) :
    given.map Cell.value = value.map Cell.value := by
  induction left generalizing other with
  | refl => exact twin.stops stops right ends
  | @step state middle last leads further ih =>
    cases right with
    | refl =>
      have place := twin.frame.pending.symm.trans ends.pending
      have alone := twin.callers
      rw [ends.callers, List.forall₂_nil_right_iff] at alone
      have yields := ends.yields
      rw [twin.frame.block] at yields
      cases leads.move with
      | instruct reached => simp [reached] at place
      | call reached => simp [reached] at place
      | goto _ goes => exact absurd goes (not_goes_of_yields yields)
      | giveBack _ _ waiting => simp [waiting] at alone
    | step also more =>
      exact ih (twin.move contract env quiet leads also.move (still.same also))
        (quiet.step leads) stops more (still.step also)

end Running

/-!
Calls that subtract nothing. What they are passed and what they read from storage is not tainted, so
what they return is not either.
-/

namespace Function

def subtractsNothing (contract : Contract) : Nat → Function → Bool
  | 0, _ => false
  | depth + 1, function =>
    function.blocks.all fun block => block.instructions.all fun instruction =>
    match instruction.node with
    | .binary _ op _ _ _ => op != .sub
    | .call _ name _ => (contract.function? name).all (subtractsNothing contract depth)
    | _ => true

end Function

def Contract.subtractsNothing (contract : Contract) (name : String) : Bool :=
  (contract.function? name).all (Function.subtractsNothing contract contract.functions.length)

structure Frame.Unmarked (contract : Contract) (frame : Frame) : Prop where
  function : ∃ depth, frame.function.subtractsNothing contract depth = true
  pending : ∀ instruction ∈ frame.pending, ∃ block ∈ frame.function.blocks,
    instruction ∈ block.instructions
  values : ∀ entry ∈ frame.values, entry.2.tainted = false
  locals : ∀ cell ∈ frame.locals, cell.tainted = false

structure Running.Unmarked (contract : Contract) (state : Running) : Prop where
  frame : state.frame.Unmarked contract
  callers : ∀ caller ∈ state.callers, caller.frame.Unmarked contract

namespace Frame.Unmarked

variable {contract : Contract} {frame after : Frame}

theorem get? (unmarked : frame.Unmarked contract) {value : ValueId} {cell : Cell}
    (held : frame.get? value = .ok cell) : cell.tainted = false := by
  unfold Frame.get? at held
  split at held
  · rename_i found
    obtain rfl := Except.ok.inj held
    exact unmarked.values _ (mem_of_lookup found)
  · simp at held

theorem past (unmarked : frame.Unmarked contract) {instruction : Located Instruction}
    {rest : List (Located Instruction)} (pending : frame.pending = instruction :: rest) :
    (frame.past rest).Unmarked contract where
  function := unmarked.function
  pending other later := unmarked.pending other (pending ▸ List.mem_cons_of_mem _ later)
  values := unmarked.values
  locals := unmarked.locals

theorem define (unmarked : frame.Unmarked contract) {dest : ValueId} {cell : Cell}
    (clean : cell.tainted = false) : (frame.define dest cell).Unmarked contract :=
  { unmarked with values := List.forall_mem_cons.mpr ⟨clean, unmarked.values⟩ }

theorem started (unmarked : frame.Unmarked contract) {target : BlockId} {block : BasicBlock}
    (found : frame.function.block? target = some block) :
    (frame.started block).Unmarked contract where
  function := unmarked.function
  pending _ listed := ⟨block, List.mem_of_getElem? found, listed⟩
  values := nofun
  locals := unmarked.locals

theorem allows (unmarked : frame.Unmarked contract) {instruction : Located Instruction}
    {rest : List (Located Instruction)} (pending : frame.pending = instruction :: rest) :
    (∀ dest op ty lhs rhs, instruction.node = .binary dest op ty lhs rhs → op ≠ .sub) ∧
      ∀ dest name args callee, instruction.node = .call dest name args → contract.function? name =
        some callee →
        ∃ depth, callee.subtractsNothing contract depth = true := by
  obtain ⟨depth, plain⟩ := unmarked.function
  obtain ⟨block, known, listed⟩ := unmarked.pending instruction (pending ▸ List.mem_cons_self)
  cases depth with
  | zero => simp [Function.subtractsNothing] at plain
  | succ depth =>
    have allowed := List.all_eq_true.mp (List.all_eq_true.mp plain block known) instruction listed
    refine ⟨?_, ?_⟩
    · rintro dest op ty lhs rhs same rfl
      simp [same] at allowed
    · intro dest name args callee same found
      exact ⟨depth, by simpa [same, found] using allowed⟩

theorem does (unmarked : frame.Unmarked contract) {setting : Setting} {effects later : Effects}
    {location : Location} {node : Instruction}
    (does : frame.Does setting effects location node after later)
    (adds : ∀ dest op ty lhs rhs, node = .binary dest op ty lhs rhs → op ≠ .sub)
    (loads : ∀ dest field key place, node = .loadField dest field key →
      frame.place field key = .ok place →
      (effects.load place).tainted = false) : after.Unmarked contract := by
  cases does with
  | const => exact unmarked.define rfl
  | env => exact unmarked.define rfl
  | loadLocal held => exact unmarked.define (unmarked.locals _ (List.mem_of_getElem? held))
  | storeLocal held =>
    refine { unmarked with locals := fun cell listed => ?_ }
    rcases List.mem_or_eq_of_mem_set listed with earlier | rfl
    · exact unmarked.locals cell earlier
    · exact unmarked.get? held
  | loadField found => exact unmarked.define (loads _ _ _ _ rfl found)
  | storeField => exact unmarked
  | binary leftHeld rightHeld =>
    refine unmarked.define ?_
    simp [unmarked.get? leftHeld, unmarked.get? rightHeld, adds _ _ _ _ _ rfl]
  | not => exact unmarked.define rfl
  | externalCall => exact unmarked.define rfl
  | emit => exact unmarked

theorem yields (unmarked : frame.Unmarked contract) {effects later : Effects} {location : Location}
    {terminator : Terminator} {value : Option Cell}
    (yields : frame.Yields effects location terminator value later) :
    ∀ cell ∈ value, cell.tainted = false := by
  cases yields with
  | nothing => nofun
  | value held =>
    intro cell same
    obtain rfl := Option.mem_some.mp same
    exact unmarked.get? held

theorem receive {caller : Caller} (unmarked : caller.frame.Unmarked contract) {value : Option Cell}
    (clean : ∀ cell ∈ value, cell.tainted = false) : (caller.receive value).Unmarked contract := by
  unfold Caller.receive
  split
  · refine unmarked.define ?_
    cases value with
    | none => rfl
    | some cell => exact clean cell rfl
  · exact unmarked

end Frame.Unmarked

theorem Function.unmarked_of_frame {contract : Contract} {function : Function} {cells : List Cell}
    {frame : Frame} (plain : ∃ depth, function.subtractsNothing contract depth = true)
    (clean : ∀ cell ∈ cells, cell.tainted = false) (framed : function.frame cells = .ok frame) :
    frame.Unmarked contract := by
  unfold Function.frame at framed
  split at framed
  · rename_i block found
    obtain rfl := Except.ok.inj framed
    refine ⟨plain, fun instruction listed => ⟨block, List.mem_of_getElem? found, listed⟩, nofun, ?_⟩
    intro cell listed
    rcases List.mem_append.mp listed with passed | unset
    · exact clean cell (List.mem_of_mem_take passed)
    · rw [List.eq_of_mem_replicate unset]
      rfl
  · simp at framed

theorem Frame.clean_of_mapM {contract : Contract} {frame : Frame}
    (unmarked : frame.Unmarked contract) {args : List ValueId} {cells : List Cell}
    (listed : args.mapM frame.get? = .ok cells) :
    ∀ cell ∈ cells, cell.tainted = false := by
  intro cell member
  obtain ⟨value, _, held⟩ := mem_of_mapM_eq_ok listed member
  exact unmarked.get? held

namespace Running

variable {reads : String → Prop} {setting : Setting} {state next last : Running}
  {value : Option Cell} {effects : Effects}

theorem Unmarked.move (unmarked : state.Unmarked setting.contract)
    (quiet : OnlyReads setting reads state)
    (clean : ∀ place : StorageKey, reads place.field → (state.effects.load place).tainted = false)
    (move : Move setting state next) : next.Unmarked setting.contract := by
  cases move with
  | @instruct instruction rest frame effects pending does =>
    refine ⟨(unmarked.frame.past pending).does does (unmarked.frame.allows pending).1 ?_,
      unmarked.callers⟩
    intro dest field key place same found
    refine clean place
      (quiet.loads state (.refl state) dest place.field key ⟨instruction.location, rest, ?_⟩)
    rw [pending, Frame.place_eq found, ← same]
  | call pending found listed framed =>
    have callee := (unmarked.frame.allows pending).2 _ _ _ _ rfl found
    have past := unmarked.frame.past pending
    exact ⟨Function.unmarked_of_frame callee (Frame.clean_of_mapM past listed) framed,
      List.forall_mem_cons.mpr ⟨past, unmarked.callers⟩⟩
  | goto _ _ found => exact ⟨unmarked.frame.started found, unmarked.callers⟩
  | giveBack _ yields waiting =>
    have callers := waiting ▸ unmarked.callers
    obtain ⟨first, others⟩ := List.forall_mem_cons.mp callers
    exact ⟨first.receive (unmarked.frame.yields yields), others⟩

theorem Unmarked.of_reaches (unmarked : state.Unmarked setting.contract)
    (quiet : OnlyReads setting reads state)
    (clean : ∀ place : StorageKey, reads place.field → (state.effects.load place).tainted = false)
    (reaches : Reaches setting state last) : last.Unmarked setting.contract := by
  induction reaches with
  | refl => exact unmarked
  | step leads _ ih =>
    refine ih (unmarked.move quiet clean leads.move) (quiet.step leads) fun place listed => ?_
    rw [(quiet.same leads).load]
    exact clean place listed

end Running

end Covenant
