import Covenant.Proofs.Lowering.Growth
import Covenant.Proofs.Lowering.Meaning
import Covenant.Proofs.Run.Budget
import Mathlib.Data.List.Forall2

/-!
How running code follows the meaning of what it was made from. Where the meaning has an answer, the
code gets to a state that shows the answer, or ends with the same revert; where the fuel of the
meaning does not suffice, the code takes at least as many steps.
-/

namespace Covenant

structure Effects.Shows (effects : Effects) (world : World) : Prop where
  storage : effects.storage = world.storage
  events : effects.events.reverse = world.events
  calls : effects.calls.reverse = world.calls

def Follows {α : Type} (setting : Setting) (fuel : Nat) (state : Running) (world : World)
    (meaning : Meaning α) (after : α → World → Running → Prop) : Prop :=
  match meaning world with
  | none => state.Outlasts setting fuel
  | some (.reverts message) => ∃ effects, state.EndsWith setting (.reverted message) effects
  | some (.gives result changed) => ∃ next, state.Reaches setting next ∧ after result changed next

namespace Follows

variable {α β : Type} {setting : Setting} {fuel : Nat} {state : Running} {world : World}
  {meaning : Meaning α} {after : α → World → Running → Prop}

theorem give {result : α} (holds : after result world state) :
    Follows setting fuel state world (pure result) after :=
  ⟨state, .refl state, holds⟩

theorem mono {wider : α → World → Running → Prop}
    (follows : Follows setting fuel state world meaning after)
    (implies : ∀ result changed next, after result changed next → wider result changed next) :
    Follows setting fuel state world meaning wider := by
  unfold Follows at follows ⊢
  cases answer : meaning world with
  | none =>
    rw [answer] at follows
    exact follows
  | some answered =>
    rw [answer] at follows
    cases answered with
    | reverts message => exact follows
    | gives result changed =>
      obtain ⟨next, reaches, holds⟩ := follows
      exact ⟨next, reaches, implies result changed next holds⟩

theorem less {fewer : Nat} (follows : Follows setting fuel state world meaning after)
    (less : fewer ≤ fuel) :
    Follows setting fewer state world meaning after := by
  unfold Follows at follows ⊢
  cases answer : meaning world with
  | none =>
    rw [answer] at follows
    exact follows.mono less
  | some answered =>
    rw [answer] at follows
    cases answered with
    | reverts message => exact follows
    | gives result changed => exact follows

theorem of_reaches {middle : Running} (reaches : state.Reaches setting middle)
    (follows : Follows setting fuel middle world meaning after) :
    Follows setting fuel state world meaning after := by
  unfold Follows at follows ⊢
  cases answer : meaning world with
  | none =>
    rw [answer] at follows
    exact reaches.outlasts follows
  | some answered =>
    rw [answer] at follows
    cases answered with
    | reverts message =>
      obtain ⟨effects, ends⟩ := follows
      exact ⟨effects, reaches.endsWith ends⟩
    | gives result changed =>
      obtain ⟨next, further, holds⟩ := follows
      exact ⟨next, reaches.trans further, holds⟩

theorem of_leads {middle : Running} (leads : state.Leads setting middle)
    (follows : Follows setting fuel middle world meaning after) :
    Follows setting (fuel + 1) state world meaning after := by
  unfold Follows at follows ⊢
  cases answer : meaning world with
  | none =>
    rw [answer] at follows
    exact leads.outlasts follows
  | some answered =>
    rw [answer] at follows
    cases answered with
    | reverts message =>
      obtain ⟨effects, ends⟩ := follows
      exact ⟨effects, leads.endsWith ends⟩
    | gives result changed =>
      obtain ⟨next, further, holds⟩ := follows
      exact ⟨next, leads.reaches.trans further, holds⟩

theorem bind {next : α → Meaning β} {final : β → World → Running → Prop}
    (first : Follows setting fuel state world meaning after)
    (second : ∀ result changed middle, after result changed middle →
      Follows setting fuel middle changed (next result) final) :
    Follows setting fuel state world (meaning >>= next) final := by
  unfold Follows at first
  cases answer : meaning world with
  | none =>
    rw [answer] at first
    have none : (meaning >>= next) world = none := by simp only [Bind.bind, Meaning.andThen, answer]
    unfold Follows
    rw [none]
    exact first
  | some answered =>
    rw [answer] at first
    cases answered with
    | reverts message =>
      have reverts : (meaning >>= next) world = some (.reverts message) := by
        simp only [Bind.bind, Meaning.andThen, answer]
      unfold Follows
      rw [reverts]
      exact first
    | gives result changed =>
      obtain ⟨middle, reaches, holds⟩ := first
      have continued : (meaning >>= next) world = next result changed := by
        simp only [Bind.bind, Meaning.andThen, answer]
      have rest := of_reaches reaches (second result changed middle holds)
      unfold Follows at rest ⊢
      rw [continued]
      exact rest

theorem known {option : Option α} {value : α} {next : α → Meaning β}
    {final : β → World → Running → Prop} (found : option = some value)
    (follows : Follows setting fuel state world (next value) final) :
    Follows setting fuel state world (Meaning.known option >>= next) final := by
  subst found
  have given : Follows setting fuel state world (pure value) fun result changed middle =>
      result = value ∧ changed = world ∧ middle = state := give ⟨rfl, rfl, rfl⟩
  refine bind given fun result changed middle holds => ?_
  obtain ⟨rfl, rfl, rfl⟩ := holds
  exact follows

end Follows

/-! The values of a frame. -/

namespace Frame

def Holds (frame : Frame) (id : ValueId) (value : Nat) : Prop :=
  ∃ cell, frame.values.lookup id = some cell ∧ cell.value = value

theorem holds_define (frame : Frame) (id : ValueId) (cell : Cell) :
    (frame.define id cell).Holds id cell.value :=
  ⟨cell, by simp [define], rfl⟩

theorem Holds.get {frame : Frame} {id : ValueId} {value : Nat} (holds : frame.Holds id value) :
    ∃ cell, frame.get? id = .ok cell ∧ cell.value = value := by
  obtain ⟨cell, found, same⟩ := holds
  exact ⟨cell, by simp [get?, found], same⟩

theorem Holds.getAll {frame : Frame} {ids : List ValueId} {values : List Nat}
    (holds : List.Forall₂ frame.Holds ids values) :
    ∃ cells, ids.mapM frame.get? = .ok cells ∧ cells.map Cell.value = values := by
  induction holds with
  | nil => exact ⟨[], rfl, rfl⟩
  | cons first _ ih =>
    obtain ⟨cell, got, same⟩ := first.get
    obtain ⟨cells, others, sames⟩ := ih
    refine ⟨cell :: cells, ?_, by simp [same, sames]⟩
    simp [List.mapM_cons, got, others, bind, Except.bind, pure, Except.pure]

end Frame

structure Running.Past (state : Running) (limit : ValueId) (rest : List (Located Instruction))
    (next : Running) :
    Prop where
  pending : next.frame.pending = rest
  function : next.frame.function = state.frame.function
  block : next.frame.block = state.frame.block
  locals : next.frame.locals = state.frame.locals
  callers : next.callers = state.callers
  kept : ∀ id < limit, next.frame.values.lookup id = state.frame.values.lookup id

namespace Running.Past

variable {state middle next : Running} {limit : ValueId} {rest : List (Located Instruction)}

theorem refl (here : state.frame.pending = rest) : state.Past limit rest state :=
  ⟨here, rfl, rfl, rfl, rfl, fun _ _ => rfl⟩

theorem trans {more : List (Located Instruction)} {higher : ValueId}
    (first : state.Past limit more middle) (second : middle.Past higher rest next)
    (low : limit ≤ higher) : state.Past limit rest next where
  pending := second.pending
  function := second.function.trans first.function
  block := second.block.trans first.block
  locals := second.locals.trans first.locals
  callers := second.callers.trans first.callers
  kept := fun id small => (second.kept id (Nat.lt_of_lt_of_le small low)).trans
    (first.kept id small)

theorem holds (past : state.Past limit rest next) {id : ValueId} {value : Nat} (small : id < limit)
    (held : state.frame.Holds id value) : next.frame.Holds id value := by
  obtain ⟨cell, found, same⟩ := held
  exact ⟨cell, by rw [past.kept id small, found], same⟩

end Running.Past

/-! Single instructions. -/

namespace Running

variable {setting : Setting} {state : Running} {next : Located Instruction}
  {rest : List (Located Instruction)}

theorem step_of_pending (pending : state.frame.pending = next :: rest) :
    state.step setting = state.instruction setting
      { state.frame with pending := rest } next.location next.node := by
  unfold step
  rw [pending]

def defined (state : Running) (rest : List (Located Instruction)) (dest : ValueId) (cell : Cell)
    (effects : Effects) : Running :=
  { state with frame := ({ state.frame with pending := rest }).define dest cell, effects }

theorem past_defined (state : Running) (rest : List (Located Instruction)) {dest limit : ValueId}
    (cell : Cell) (effects : Effects) (fresh : limit ≤ dest) :
    state.Past limit rest (state.defined rest dest cell effects) where
  pending := rfl
  function := rfl
  block := rfl
  locals := rfl
  callers := rfl
  kept := by
    intro id small
    have other : (id == dest) = false :=
      beq_eq_false_iff_ne.mpr (Nat.ne_of_lt (Nat.lt_of_lt_of_le small fresh))
    simp only [defined, Frame.define, List.lookup_cons, other]

theorem holds_defined (state : Running) (rest : List (Located Instruction)) (dest : ValueId)
    (cell : Cell) (effects : Effects) :
    (state.defined rest dest cell effects).frame.Holds dest cell.value :=
  Frame.holds_define _ _ _

theorem leads_of_step {final : Running}
    (stepped : ∀ depth, state.step (setting.withDepth depth) = .ok (.running final)) :
    state.Leads setting final :=
  ⟨0, stepped 0⟩

end Running

end Covenant
