import Covenant.Proofs.Code.Provenance
import Covenant.Proofs.Run.Moves
import Covenant.Proofs.Run.Soundness

/-!
Two runs that differ in one part of the surroundings only. As long as both show the same where code
comes to a decision, reads storage, or passes values from one function to another, they go through
the same code and hold the same wherever nothing can come from that part.
-/

namespace Covenant

/-- What a step shows: how a branch or a guard is decided, what is read from storage, what is passed
to a function of the contract, or what one gives back. -/
inductive Sight where
  | decided (holds : Bool)
  | loaded (value : Nat)
  | passed (args : List Nat)
  | gave (value : Option Nat)
deriving DecidableEq, Repr

def Frame.valueOf (frame : Frame) (value : ValueId) : Nat :=
  match frame.get? value with
  | .ok cell => cell.value
  | .error _ => 0

namespace Running

def sight? (state : Running) : Option Sight :=
  match state.frame.pending with
  | ⟨.loadField _ field key, _⟩ :: _ =>
    some (.loaded (state.effects.load ⟨field, key.map state.frame.valueOf⟩).value)
  | ⟨.call _ _ args, _⟩ :: _ => some (.passed (args.map state.frame.valueOf))
  | _ :: _ => none
  | [] =>
    match state.frame.block.terminator.node with
    | .branch condition _ _ => some (.decided (state.frame.valueOf condition != 0))
    | .guard condition _ _ _ => some (.decided (state.frame.valueOf condition != 0))
    | .ret value => some (.gave (value.map state.frame.valueOf))
    | .jump _ => none
    | .revert _ => none

/-- Some steps lead from a state to another one and show the given on the way. -/
inductive Shows (setting : Setting) : Running → List Sight → Running → Prop
  | refl (state) : Shows setting state [] state
  | step {state middle final sights} : Leads setting state middle →
      Shows setting middle sights final →
      Shows setting state (state.sight?.toList ++ sights) final

end Running

structure Setting.Alike (var : EnvVar) (setting other : Setting) : Prop where
  contract : other.contract = setting.contract
  callsSucceed : other.callsSucceed = setting.callsSucceed
  env : ∀ part, part ≠ var → other.env.get part = setting.env.get part

structure Frame.Alike (var : EnvVar) (frame other : Frame) : Prop where
  function : other.function = frame.function
  block : other.block = frame.block
  pending : other.pending = frame.pending
  values : ∀ value, ¬ frame.function.Carries (.env var) ⟨frame.block.id, value⟩ →
    other.valueOf value = frame.valueOf value
  locals : ∀ slot,
    (∀ site ∈ frame.function.storesTo slot, ¬ frame.function.Carries (.env var) site) →
    other.locals[slot]?.map Cell.value = frame.locals[slot]?.map Cell.value

structure Running.Alike (var : EnvVar) (state other : Running) : Prop where
  frame : state.frame.Alike var other.frame
  callers : List.Forall₂ (fun caller waiting => waiting.dest = caller.dest ∧
    caller.frame.Alike var waiting.frame) state.callers other.callers

/-! Values. -/

namespace Frame

variable {frame : Frame}

theorem valueOf_eq {value : ValueId} {cell : Cell} (held : frame.get? value = .ok cell) :
    frame.valueOf value = cell.value := by
  simp only [valueOf, held]

theorem valueOf_define (frame : Frame) (dest : ValueId) (cell : Cell) (value : ValueId) :
    (frame.define dest cell).valueOf value = if value = dest then cell.value
      else frame.valueOf value := by
  simp only [valueOf, get?, define, List.lookup_cons]
  by_cases same : value = dest
  · simp [same]
  · simp [same, beq_false_of_ne same]

theorem place_eq {field : String} {key : Option ValueId} {place : StorageKey}
    (found : frame.place field key = .ok place) :
    place = ⟨field, key.map frame.valueOf⟩ := by
  cases key with
  | none => exact (Except.ok.inj found).symm
  | some key =>
    obtain ⟨cell, held, found⟩ := chain_eq_ok.mp found
    rw [Option.map_some, valueOf_eq held]
    exact (Except.ok.inj found).symm

theorem mapM_valueOf {values : List ValueId} {cells : List Cell}
    (found : values.mapM frame.get? = .ok cells) :
    cells.map Cell.value = values.map frame.valueOf := by
  induction values generalizing cells with
  | nil =>
    obtain rfl := Except.ok.inj found
    rfl
  | cons value rest ih =>
    rw [List.mapM_cons] at found
    obtain ⟨cell, held, found⟩ := chain_eq_ok.mp found
    obtain ⟨others, listed, found⟩ := chain_eq_ok.mp found
    obtain rfl := Except.ok.inj found
    rw [List.map_cons, List.map_cons, valueOf_eq held, ih listed]

end Frame

/-! Frames. -/

namespace Frame.Alike

variable {var : EnvVar} {frame other : Frame}

theorem past (alike : frame.Alike var other) (rest : List (Located Instruction)) :
    (frame.past rest).Alike var (other.past rest) :=
  ⟨alike.function, alike.block, rfl, alike.values, alike.locals⟩

theorem started (alike : frame.Alike var other) (block : BasicBlock) :
    (frame.started block).Alike var (other.started block) :=
  ⟨alike.function, rfl, rfl, fun _ _ => rfl, alike.locals⟩

theorem define (alike : frame.Alike var other) {dest : ValueId} {cell held : Cell}
    (same : ¬ frame.function.Carries (.env var) ⟨frame.block.id, dest⟩ → held.value = cell.value) :
    (frame.define dest cell).Alike var (other.define dest held) := by
  refine ⟨alike.function, alike.block, alike.pending, fun value free => ?_, alike.locals⟩
  rw [valueOf_define, valueOf_define]
  split
  · rename_i here
    exact same (here ▸ free)
  · exact alike.values value free

theorem setLocal (alike : frame.Alike var other) {slot : LocalId} {cell held : Cell}
    (low : slot < frame.locals.length) (high : slot < other.locals.length)
    (same : (∀ site ∈ frame.function.storesTo slot, ¬ frame.function.Carries (.env var) site) →
      held.value = cell.value) :
    Frame.Alike var { frame with locals := frame.locals.set slot cell }
      { other with locals := other.locals.set slot held } := by
  refine ⟨alike.function, alike.block, alike.pending, alike.values, fun index free => ?_⟩
  by_cases here : slot = index
  · subst here
    simp only [List.getElem?_set_self low, List.getElem?_set_self high, Option.map_some, same free]
  · simp only [List.getElem?_set_ne here]
    exact alike.locals index free

variable {setting others : Setting} {effects later different latest : Effects} {location : Location}
  {node : Instruction} {after ahead : Frame}

/-- An instruction that shows the same keeps frames alike: what it defines is computed from what is
the same, or may come from the part of the surroundings that is not. -/
theorem does (alike : frame.Alike var other) (settings : setting.Alike var others)
    (left : frame.Does setting effects location node after later)
    (right : other.Does others different location node ahead latest)
    (defines : ∀ dest, node.dest? = some dest →
      frame.function.definitionAt? ⟨frame.block.id, dest⟩ = some node)
    (stores : ∀ slot value, node = .storeLocal slot value → ⟨frame.block.id, value⟩ ∈
      frame.function.storesTo slot)
    (loads : ∀ dest field key, node = .loadField dest field key →
      (different.load ⟨field, key.map other.valueOf⟩).value =
        (effects.load ⟨field, key.map frame.valueOf⟩).value) :
    after.Alike var ahead := by
  have operand {dest : ValueId} (value : ValueId)
      (listed : ⟨frame.block.id, value⟩ ∈ frame.function.inputsOf ⟨frame.block.id, dest⟩)
      (free : ¬ frame.function.Carries (.env var) ⟨frame.block.id, dest⟩) :
      other.valueOf value = frame.valueOf value :=
    alike.values value fun carries => free (.input listed carries)
  cases left with
  | const dest value ty =>
    cases right
    exact alike.define fun _ => rfl
  | env dest part =>
    cases right
    refine alike.define fun free => ?_
    refine settings.env part fun same => free (.source ?_)
    simp only [Function.sourceAt?, defines dest rfl, same]
  | @loadLocal dest slot cell held =>
    cases right with
    | loadLocal found =>
      refine alike.define fun free => ?_
      have inputs : frame.function.inputsOf ⟨frame.block.id, dest⟩ =
          frame.function.storesTo slot := by
        simp only [Function.inputsOf, defines dest rfl]
      have agree := alike.locals slot fun site listed carries =>
        free (.input (inputs ▸ listed) carries)
      rw [held, found] at agree
      exact Option.some.inj agree
  | @storeLocal slot value cell name held low =>
    cases right with
    | storeLocal found high =>
      refine alike.setLocal low high fun free => ?_
      rw [← valueOf_eq held, ← valueOf_eq found]
      exact alike.values value (free _ (stores slot value rfl))
  | @loadField dest field key place found =>
    cases right with
    | loadField there =>
      refine alike.define fun _ => ?_
      rw [place_eq found, place_eq there]
      exact loads dest field key rfl
  | storeField found held =>
    cases right
    exact alike
  | @binary dest op ty lhs rhs first second value firstHeld secondHeld computed =>
    cases right with
    | binary firstFound secondFound again =>
      refine alike.define fun free => ?_
      have inputs : frame.function.inputsOf ⟨frame.block.id, dest⟩ =
          [⟨frame.block.id, lhs⟩, ⟨frame.block.id, rhs⟩] := by
        simp only [Function.inputsOf, defines dest rfl]
      have lhsSame := operand lhs (by simp [inputs]) free
      have rhsSame := operand rhs (by simp [inputs]) free
      rw [valueOf_eq firstHeld, valueOf_eq firstFound] at lhsSame
      rw [valueOf_eq secondHeld, valueOf_eq secondFound] at rhsSame
      rw [lhsSame, rhsSame, computed] at again
      exact (Option.some.inj again).symm
  | @not dest value cell held =>
    cases right with
    | not found =>
      refine alike.define fun free => ?_
      have inputs : frame.function.inputsOf ⟨frame.block.id, dest⟩ = [⟨frame.block.id, value⟩] := by
        simp only [Function.inputsOf, defines dest rfl]
      have same := operand value (by simp [inputs]) free
      rw [valueOf_eq held, valueOf_eq found] at same
      simp only [Cell.clean, same]
  | externalCall targetHeld amountHeld allowed =>
    cases right
    refine alike.define fun _ => ?_
    simp only [Cell.clean, settings.callsSucceed]
  | emit listed =>
    cases right
    exact alike

end Frame.Alike

theorem Function.alike_of_frame {function : Function} {cells others : List Cell}
    {frame other : Frame} (var : EnvVar) (framed : function.frame cells = .ok frame)
    (again : function.frame others = .ok other)
    (same : others.map Cell.value = cells.map Cell.value) : frame.Alike var other := by
  unfold Function.frame at framed again
  split at framed
  · rename_i block found
    rw [found] at again
    obtain rfl := Except.ok.inj framed
    obtain rfl := Except.ok.inj again
    have count : others.length = cells.length := by
      rw [← List.length_map (f := Cell.value), same, List.length_map]
    refine ⟨rfl, rfl, rfl, fun _ _ => rfl, fun slot _ => ?_⟩
    rw [← List.getElem?_map, ← List.getElem?_map]
    simp only [List.map_append, List.map_take, same, count]
  · simp at framed

namespace Running

variable {var : EnvVar} {setting others : Setting} {state next other following : Running}

theorem Alike.isSome_sight? (alike : state.Alike var other) :
    other.sight?.isSome = state.sight?.isSome := by
  unfold sight?
  rw [alike.frame.pending, alike.frame.block]
  split
  · rfl
  · rfl
  · rfl
  · split <;> rfl

theorem Alike.receive {caller waiting : Caller} (dest : waiting.dest = caller.dest)
    (alike : caller.frame.Alike var waiting.frame) {value given : Option Cell}
    (same : given.map Cell.value = value.map Cell.value) :
    (caller.receive value).Alike var (waiting.receive given) := by
  unfold Caller.receive
  rw [dest]
  cases caller.dest with
  | none => exact alike
  | some id =>
    refine alike.define fun _ => ?_
    cases value <;> cases given <;> simp_all

theorem yields_sight {effects later : Effects} {location : Location} {value : Option Cell}
    (pending : state.frame.pending = [])
    (yields : state.frame.Yields effects location state.frame.block.terminator.node value later) :
    state.sight? = some (.gave (value.map Cell.value)) := by
  unfold sight?
  simp only [pending]
  generalize state.frame.block.terminator.node = terminator at yields
  cases yields with
  | nothing => rfl
  | value held => simp only [Option.map_some, Frame.valueOf_eq held]

theorem goes_eq {frame ahead : Frame} {effects later different latest : Effects}
    {location elsewhere : Location} {node : Terminator} {target destination : BlockId}
    (left : frame.Goes effects location node target later)
    (right : ahead.Goes different elsewhere node destination latest)
    (decides : ∀ condition, node.condition? = some condition →
      (ahead.valueOf condition != 0) = (frame.valueOf condition != 0)) : destination = target := by
  cases left with
  | jump => cases right; rfl
  | branch held =>
    cases right with
    | branch found =>
      have decided := decides _ rfl
      rw [Frame.valueOf_eq held, Frame.valueOf_eq found] at decided
      rw [decided]
  | guard held holds => cases right; rfl

theorem sight?_of_condition {condition : ValueId} (pending : state.frame.pending = [])
    (decides : state.frame.block.terminator.node.condition? = some condition) :
    state.sight? = some (.decided (state.frame.valueOf condition != 0)) := by
  unfold sight?
  simp only [pending]
  cases node : state.frame.block.terminator.node
    <;> simp only [node, Terminator.condition?, reduceCtorEq] at decides
  case branch => rw [Option.some.inj decides]
  case guard => rw [Option.some.inj decides]

section Moves

variable {given : Prop} {declared : Declarations} {result : Option Ty}

theorem Alike.instruct (alike : state.Alike var other) (settings : setting.Alike var others)
    (typed : state.Typed given setting.contract declared result)
    {instruction : Located Instruction} {rest : List (Located Instruction)} {after ahead : Frame}
    {later latest : Effects} (pending : state.frame.pending = instruction :: rest)
    (left : (state.frame.past rest).Does setting state.effects instruction.location instruction.node
      after later)
    (right : (other.frame.past rest).Does others other.effects instruction.location instruction.node
      ahead latest)
    (same : other.sight? = state.sight?) : after.Alike var ahead := by
  obtain ⟨types, standing⟩ := typed.frame
  obtain ⟨done, split, _⟩ := standing.place
  rw [pending] at split
  have listed : instruction ∈ state.frame.block.instructions := by
    rw [split]
    exact List.mem_append_right _ List.mem_cons_self
  have next : other.frame.pending = instruction :: rest := alike.frame.pending.trans pending
  refine (alike.frame.past rest).does settings left right ?_ ?_ ?_
  · intro dest defines
    exact standing.function.definitionAt?_eq standing.block split defines
  · intro slot value stores
    obtain ⟨node, location⟩ := instruction
    obtain rfl := stores
    exact Function.mem_storesTo_iff.mpr
      ⟨_, Function.mem_instructions (List.mem_of_getElem? standing.block) listed⟩
  · intro dest field key loads
    obtain ⟨node, location⟩ := instruction
    obtain rfl := loads
    simp only [sight?, pending, next] at same
    exact Sight.loaded.inj (Option.some.inj same)

theorem Alike.goto (alike : state.Alike var other) {target destination : BlockId}
    {block entered : BasicBlock} {later latest : Effects} (pending : state.frame.pending = [])
    (left : state.frame.Goes state.effects state.frame.block.terminator.location
      state.frame.block.terminator.node target
      later)
    (right : other.frame.Goes other.effects other.frame.block.terminator.location
      other.frame.block.terminator.node
      destination latest)
    (found : state.frame.function.block? target = some block)
    (reached : other.frame.function.block? destination = some entered)
    (same : other.sight? = state.sight?) :
    (state.frame.started block).Alike var (other.frame.started entered) := by
  have next : other.frame.pending = [] := alike.frame.pending.trans pending
  rw [alike.frame.block] at right
  have there : destination = target := by
    refine goes_eq left right fun condition decides => ?_
    rw [sight?_of_condition pending decides,
      sight?_of_condition next (alike.frame.block ▸ decides)] at same
    exact Sight.decided.inj (Option.some.inj same)
  rw [alike.frame.function, there, found] at reached
  obtain rfl := Option.some.inj reached
  exact alike.frame.started block

/-- Steps that show the same keep states alike. -/
theorem Alike.move (alike : state.Alike var other) (settings : setting.Alike var others)
    (typed : state.Typed given setting.contract declared result) (left : Move setting state next)
    (right : Move others other following) (same : other.sight? = state.sight?) :
    next.Alike var following := by
  have place := alike.frame.pending
  have block := alike.frame.block
  cases left with
  | instruct pending does =>
    rw [pending] at place
    cases right with
    | instruct reached again =>
      obtain ⟨rfl, rfl⟩ := List.cons.inj (reached.symm.trans place)
      exact ⟨alike.instruct settings typed pending does again same, alike.callers⟩
    | call reached =>
      obtain ⟨rfl, rfl⟩ := List.cons.inj (reached.symm.trans place)
      cases does
    | goto reached => simp [reached] at place
    | giveBack reached => simp [reached] at place
  | call pending found listed framed =>
    rw [pending] at place
    cases right with
    | instruct reached does =>
      obtain ⟨rfl, rfl⟩ := List.cons.inj (reached.symm.trans place)
      cases does
    | call reached again passed entered =>
      obtain ⟨node, rfl⟩ := List.cons.inj (reached.symm.trans place)
      obtain ⟨⟨rfl, rfl, rfl⟩, rfl⟩ : (_ ∧ _ ∧ _) ∧ _ := by simpa using node
      rw [settings.contract, found] at again
      obtain rfl := Option.some.inj again
      simp only [sight?, pending, reached] at same
      refine ⟨Function.alike_of_frame var framed entered ?_,
        .cons ⟨rfl, alike.frame.past _⟩ alike.callers⟩
      rw [Frame.mapM_valueOf listed, Frame.mapM_valueOf passed]
      exact Sight.passed.inj (Option.some.inj same)
    | goto reached => simp [reached] at place
    | giveBack reached => simp [reached] at place
  | goto pending goes found =>
    rw [pending] at place
    cases right with
    | instruct reached => simp [reached] at place
    | call reached => simp [reached] at place
    | goto reached again entered =>
      exact ⟨alike.goto pending goes again found entered same, alike.callers⟩
    | giveBack reached yields =>
      rw [block] at yields
      generalize state.frame.block.terminator.node = node at goes yields
      cases goes <;> cases yields
  | giveBack pending yields waiting =>
    rw [pending] at place
    cases right with
    | instruct reached => simp [reached] at place
    | call reached => simp [reached] at place
    | goto reached goes =>
      rw [block] at goes
      generalize state.frame.block.terminator.node = node at goes yields
      cases goes <;> cases yields
    | giveBack reached again others =>
      rw [yields_sight pending yields, yields_sight reached again] at same
      have callers := alike.callers
      rw [waiting, others] at callers
      cases callers with
      | cons first further =>
        exact ⟨Alike.receive first.1 first.2 (Sight.gave.inj (Option.some.inj same)), further⟩

end Moves

def follow (setting : Setting) : Nat → Running → Option (List Sight × Running)
  | 0, state => some ([], state)
  | steps + 1, state =>
    match state.step setting with
    | .ok (.running next) =>
      (follow setting steps next).map fun reached => (state.sight?.toList ++ reached.1, reached.2)
    | _ => none

theorem shows_of_follow {steps : Nat} {sights : List Sight}
    (followed : follow setting steps state = some (sights, next)) :
    Shows setting state sights next := by
  induction steps generalizing state sights with
  | zero =>
    obtain ⟨rfl, rfl⟩ := Prod.mk.inj (Option.some.inj followed)
    exact .refl state
  | succ steps ih =>
    unfold follow at followed
    split at followed
    · rename_i middle stepped
      obtain ⟨⟨later, final⟩, further, same⟩ := Option.map_eq_some_iff.mp followed
      obtain ⟨rfl, rfl⟩ := Prod.mk.inj same
      exact .step ⟨setting.depthLimit, stepped⟩ (ih further)
    · simp at followed

theorem Shows.reaches {sights : List Sight} (shows : Shows setting state sights next) :
    Reaches setting state next := by
  induction shows with
  | refl => exact .refl _
  | step leads _ ih => exact .step leads ih

/-- Runs that start alike and show the same up to a step of each that shows something are alike
there. -/
theorem Shows.alike {declared : Declarations} {result : Option Ty} {sights : List Sight}
    {first second : Running} (left : Shows setting state sights first)
    (right : Shows others other sights second) (alike : state.Alike var other)
    (settings : setting.Alike var others) (code : setting.contract.Typed declared)
    (typed : state.Typed False setting.contract declared result)
    (here : first.sight?.isSome = true) (there : second.sight?.isSome = true) :
    first.Alike var second := by
  induction left generalizing other with
  | refl state =>
    generalize empty : ([] : List Sight) = sights at right
    cases right with
    | refl => exact alike
    | step leads shows =>
      -- the other run would show something where this one has shown nothing yet
      rw [← alike.isSome_sight?] at here
      cases other.sight? <;> simp_all
  | @step state middle final sights leads shows ih =>
    generalize same : state.sight?.toList ++ sights = all at right
    cases right with
    | refl =>
      rw [alike.isSome_sight?] at there
      cases state.sight? <;> simp_all
    | @step _ following _ more goes further =>
      have equal : other.sight? = state.sight? ∧ more = sights := by
        have both := alike.isSome_sight?
        cases one : state.sight? <;> cases two : other.sight? <;> simp_all
      obtain ⟨equal, rfl⟩ := equal
      have next := alike.move settings typed leads.move goes.move equal
      exact ih further next (leads.reaches.typed code False.elim typed) here

end Running

end Covenant
