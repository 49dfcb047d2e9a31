import Covenant.Proofs.Bytecode.Reductions
import Covenant.Proofs.Bytecode.Shrinking

/-!
What folding, narrowing operands and using values again keep of a run. The last two put as many
operations in the place of others, so that nothing moves, and the changed program can be followed
step by step, also where a run faults or takes too many steps.
-/

namespace Covenant

namespace Bytecode

namespace MachineState

variable {ops : List Op} {input : MachineInput} {fuel : Nat} {state : MachineState} {op : Op}

/-- The states in which a run of at most the given number of steps executes an operation. -/
def visits (code : Array Op) (input : MachineInput) : Nat → MachineState → List MachineState
  | 0, _ => []
  | fuel + 1, state =>
    match code[state.next]? with
    | none => []
    | some op =>
      state ::
        match run input state.past op with
        | .halted _ _ => []
        | .running next => visits code input fuel next

def observed (ops : List Op) (input : MachineInput) (fuel : Nat) (state : MachineState) :
    Observation :=
  Program.observation input (runFor ops.toArray input fuel state).1
    (runFor ops.toArray input fuel state).2

def exhausted : Observation :=
  { outcome := .outOfFuel, storageDelta := [], effects := [], returnValue := none }

theorem observed_off (outside : ops[state.next]? = none) :
    observed ops input fuel state = Program.observation input (.committed .stopped none) state := by
  unfold observed runFor
  simp [outside]

theorem observed_zero (found : ops[state.next]? = some op) :
    observed ops input 0 state = exhausted := by
  unfold observed runFor
  simp [found, Program.observation, exhausted]

theorem observed_succ (found : ops[state.next]? = some op) :
    observed ops input (fuel + 1) state =
      match run input state.past op with
      | .halted halt final => Program.observation input halt final
      | .running next => observed ops input fuel next := by
  have stepped : runFor ops.toArray input (fuel + 1) state =
      match run input state.past op with
      | .halted halt final => (halt, final)
      | .running next => runFor ops.toArray input fuel next := by
    rw [runFor]
    simp only [List.getElem?_toArray, found]
    rfl
  unfold observed
  rw [stepped]
  cases run input state.past op with
  | halted halt final => rfl
  | running next => rfl

theorem observed_of_same {code : List Op} {other : Op} (found : ops[state.next]? = some op)
    (there : code[state.next]? = some other)
    (same : run input state.past other = run input state.past op)
    (further : ∀ less next, fuel = less + 1 → run input state.past op = .running next →
      observed code input less next = observed ops input less next) :
    observed code input fuel state = observed ops input fuel state := by
  cases fuel with
  | zero => rw [observed_zero found, observed_zero there]
  | succ less =>
    rw [observed_succ found, observed_succ there, same]
    cases ran : run input state.past op with
    | halted halt final => rfl
    | running next => exact further less next rfl ran

theorem observed_map {change : Op → Op}
    (same : ∀ state op, run input state (change op) = run input state op) (fuel : Nat)
    (state : MachineState) :
    observed (ops.map change) input fuel state = observed ops input fuel state := by
  induction fuel using Nat.strongRecOn generalizing state with
  | _ fuel ih =>
    cases found : ops[state.next]? with
    | none =>
      have outside : (ops.map change)[state.next]? = none := by
        rw [List.getElem?_map, found]
        rfl
      rw [observed_off found, observed_off outside]
    | some op =>
      have there : (ops.map change)[state.next]? = some (change op) := by
        rw [List.getElem?_map, found]
        rfl
      apply observed_of_same found there (same _ op)
      intro less next counted ran
      exact ih less (by omega) next

theorem visits_succ {next : MachineState} (found : ops[state.next]? = some op)
    (ran : run input state.past op = .running next) :
    visits ops.toArray input (fuel + 1) state = state :: visits ops.toArray input fuel next := by
  rw [visits]
  simp only [List.getElem?_toArray, found, ran]

theorem mem_visits_self (found : ops[state.next]? = some op) (fuel : Nat) :
    state ∈ visits ops.toArray input (fuel + 1) state := by
  rw [visits]
  simp [found]

/-- No operation leaves more values on the stack than it can hold. -/
theorem stack_le_of_run {next : MachineState} (ran : run input state op = .running next)
    (small : state.stack.length ≤ stackLimit) : next.stack.length ≤ stackLimit := by
  have pushed {before : MachineState} {stack : List UInt64} {value : UInt64}
      (goes : before.push stack value = .running next) : next.stack.length ≤ stackLimit := by
    obtain ⟨room, rfl⟩ := push_eq_running.mp goes
    exact room
  cases op with
  | push value width => exact pushed ran
  | load slot wide => exact pushed ran
  | arg index => exact pushed ran
  | caller => exact pushed ran
  | timestamp => exact pushed ran
  | callValue => exact pushed ran
  | stop => simp [run] at ran
  | revert => simp [run] at ran
  | jump target =>
    obtain rfl := MachineStep.running.inj ran
    exact small
  | jumpDest =>
    obtain rfl := MachineStep.running.inj ran
    exact small
  | _ =>
    simp only [run] at ran
    split at ran
    · rename_i held
      rw [held] at small
      first
        | exact pushed ran
        | obtain rfl := MachineStep.running.inj ran
          simp only [List.length_cons] at small ⊢
          omega
        | simp at ran
    · simp [fault] at ran

/-- A step leads to the operation behind, or to a jump destination where all jumps lead to one. -/
theorem arrives_of_run {program : Program} (lands : program.JumpsLand) {next : MachineState}
    (found : program.ops[state.next]? = some op) (ran : run input state.past op = .running next) :
    next.next = state.next + 1 ∨ program.ops[next.next]? = some .jumpDest := by
  cases aims : op.target? with
  | none => exact .inl (next_of_run aims ran)
  | some target =>
    have leads := lands _ _ _ found aims
    cases op with
    | jump aim =>
      obtain rfl := Option.some.inj aims
      obtain rfl := MachineStep.running.inj ran
      exact .inr leads
    | jumpIf aim =>
      obtain rfl := Option.some.inj aims
      obtain ⟨condition, stack, held, rfl⟩ := run_jumpIf_eq_running.mp ran
      by_cases zero : condition = 0
      · left
        simp [zero, past]
      · right
        simpa [zero] using leads
    | _ => simp [Op.target?] at aims

end MachineState

/-! Groups of operations and as many others in their place. -/

structure Level (rule : Nat → List Op → List Op → Prop) : Prop where
  spares : ∀ {index group replacement}, rule index group replacement → Op.jumpDest ∉ group
  length : ∀ {index group replacement}, rule index group replacement → replacement.length =
    group.length
  still : ∀ {index group replacement}, rule index group replacement → ∀ op ∈ replacement,
    op.target? = none

inductive Beside (rule : Nat → List Op → List Op → Prop) : Nat → List Op → List Op → Prop
  | done {index} : Beside rule index [] []
  | keep {index op rest code} : Beside rule (index + 1) rest code → Beside rule index (op :: rest)
      (op :: code)
  | group {index group replacement rest code} : rule index group replacement →
      Beside rule (index + group.length) rest code → Beside rule index (group ++ rest)
        (replacement ++ code)

theorem Op.mapTarget_of_fixed {op : Op} {move : Nat → Nat}
    (fixed : ∀ target, op.target? = some target → move target = target) :
    op.mapTarget move = op := by
  cases op with
  | jump target => exact congrArg Op.jump (fixed target rfl)
  | jumpIf target => exact congrArg Op.jumpIf (fixed target rfl)
  | _ => rfl

theorem Beside.refl (rule : Nat → List Op → List Op → Prop) (index : Nat) (ops : List Op) :
    Beside rule index ops ops := by
  induction ops generalizing index with
  | nil => exact .done
  | cons op rest ih => exact .keep (ih (index + 1))

namespace Rewrites

variable {rule : Nat → List Op → List Op → Prop} {index : Nat} {ops : List Op} {edits : Edits}

theorem beside (rewrites : Rewrites rule index ops edits) :
    Beside rule index ops (edits.segments ops).flatten := by
  induction rewrites with
  | @done index ops =>
    rw [Edits.flatten_segments_nil]
    exact .refl rule index ops
  | keep later ih => exact .keep ih
  | @group index first others replacement rest edits ruled later ih =>
    rw [Edits.segments_group, List.flatten_append, List.flatten_cons, Edits.flatten_blank,
      List.append_nil]
    exact .group ruled ih

/-- What stands for a group is the edit of its first operation. -/
theorem edited {whole : Edits} (rewrites : Rewrites rule index ops edits)
    (part : ∀ offset, whole[index + offset]? = edits[offset]?) :
    Rewrites (fun start group replacement => rule start group replacement ∧
      whole[start]? = some (some replacement))
      index ops edits := by
  induction rewrites with
  | done => exact .done
  | @keep index op rest edits later ih =>
    apply Rewrites.keep
    apply ih
    intro offset
    rw [Nat.add_right_comm, Nat.add_assoc, part]
    exact List.getElem?_cons_succ
  | @group index first others replacement rest edits ruled later ih =>
    apply Rewrites.group
    · exact ⟨ruled, part 0⟩
    · apply ih
      intro offset
      rw [Nat.add_assoc, part]
      have placed :
          (some replacement :: others.map (fun _ => (some [] : Option (List Op)))).length =
            others.length + 1 := by
        simp
      rw [List.getElem?_append_right (by omega), placed, Nat.add_sub_cancel_left]

variable (level : Level rule)

include level

theorem length_flatten (rewrites : Rewrites rule index ops edits) :
    (edits.segments ops).flatten.length = ops.length := by
  induction rewrites with
  | done => rw [Edits.flatten_segments_nil]
  | keep later ih =>
    simp only [Edits.segments, List.flatten_cons, List.length_append, List.length_cons, ih]
    simp [Nat.add_comm]
  | group ruled later ih =>
    rw [Edits.segments_group, List.flatten_append, List.flatten_cons, Edits.flatten_blank,
      List.append_nil, List.length_append, List.length_append, level.length ruled, ih]

theorem drop_level (rewrites : Rewrites rule 0 ops edits) {target : Nat}
    (lands : ops[target]? = some .jumpDest) :
    Rewrites rule target (ops.drop target) (edits.drop target) := by
  have dropped :=
    rewrites.drop (fun ruled inside => level.spares ruled (List.mem_cons_of_mem _ inside)) lands
  rwa [Nat.zero_add] at dropped

theorem place_eq_self (rewrites : Rewrites rule 0 ops edits) {target : Nat}
    (lands : ops[target]? = some .jumpDest) :
    edits.place ops target = target := by
  have inside := (List.getElem?_eq_some_iff.mp lands).1
  have behind := (rewrites.drop_level level lands).length_flatten level
  have whole := rewrites.length_flatten level
  rw [← Edits.drop_segments, List.length_drop] at behind
  rw [← List.take_append_drop target (edits.segments ops), List.flatten_append,
    List.length_append] at whole
  rw [Edits.place_eq (Nat.le_of_lt inside)]
  omega

theorem beside_at (rewrites : Rewrites rule 0 ops edits) {target : Nat}
    (lands : ops[target]? = some .jumpDest) :
    Beside rule target (ops.drop target) ((edits.segments ops).flatten.drop target) := by
  have inside := (List.getElem?_eq_some_iff.mp lands).1
  have stays := rewrites.place_eq_self level lands
  rw [Edits.place_eq (Nat.le_of_lt inside)] at stays
  have behind := (rewrites.drop_level level lands).beside
  rw [← Edits.drop_segments] at behind
  rwa [← List.take_append_drop target (edits.segments ops), List.flatten_append,
    List.drop_left' stays]

end Rewrites

theorem Program.ops_splice_of_level {program : Program} {edits : Edits}
    {rule : Nat → List Op → List Op → Prop} (lands : program.JumpsLand) (level : Level rule)
    (rewrites : Rewrites rule 0 program.ops edits) :
    (program.splice edits).ops = (edits.segments program.ops).flatten := by
  have kept : ∀ op ∈ (edits.segments program.ops).flatten,
      op.mapTarget (edits.place program.ops) = id op := by
    intro op member
    apply Op.mapTarget_of_fixed
    intro target aims
    rcases Edits.mem_segments member with ⟨index, found, _⟩ | ⟨replacement, listed, inside⟩
    · exact rewrites.place_eq_self level (lands index op target found aims)
    · rcases rewrites.ruled_of_mem listed with blank | ⟨start, group, ruled, _⟩
      · simp [blank] at inside
      · simp [level.still ruled op inside] at aims
  rw [Program.ops_splice, List.map_congr_left kept, List.map_id]

/-! Folding. -/

namespace Folding

/-- Where all jumps lead to jump destinations, folding changes nothing that can be observed of a run
that ends properly. -/
theorem observe_folded {program : Program} {reduction : Reduction} {fuel : Nat}
    {input : MachineInput} (lands : program.JumpsLand) (reduced : reduce? program = some reduction)
    (proper : (program.observe fuel input).outcome.isProper = true) :
    reduction.program.observe fuel input = program.observe fuel input := by
  have becomes : program.Becomes False reduction.program := becomes lands reduced
  exact becomes.observe_eq lands proper

/-- Sums that change nothing, a product, a test and both kinds of decided jumps are folded; a
negation would take more bytes than before and stays. -/
theorem observe_folded_of_product :
    let program : Program :=
      ⟨[.arg 0, .push 0 .one, .binary .add, .push 0 .one, .jumpIf 17, .push 6 .one, .push 7 .one,
        .binary .mul, .push 0 .one, .unary .isZero, .pop, .push 0 .one, .unary .not, .pop,
        .push 3 .one, .jumpIf 17, .stop,
      .jumpDest, .binary .add, .ret]⟩
    let input : MachineInput := { MachineInput.zero with args := [100] }
    program.JumpsLand ∧ ∃ reduction, reduce? program = some reduction ∧
      reduction.program.ops = [.arg 0, .push 42 .one, .push 1 .one, .pop, .push 0 .one, .unary .not,
        .pop, .jump 9, .stop, .jumpDest, .binary .add, .ret] ∧
      (program.observe 20 input).outcome = .returned ∧
      reduction.program.observe 20 input = program.observe 20 input := by
  intro program input
  have lands : program.JumpsLand := Program.strayJump?_eq_none.mp (by decide)
  have outcome : (program.observe 20 input).outcome = .returned := by decide +kernel
  have ops : (reduce? program).map (fun reduction => reduction.program.ops) =
    some [.arg 0, .push 42 .one, .push 1 .one,
      .pop, .push 0 .one, .unary .not, .pop, .jump 9, .stop, .jumpDest, .binary .add, .ret] := by
        decide +kernel
  obtain ⟨reduction, reduced, same⟩ := Option.map_eq_some_iff.mp ops
  exact ⟨lands, reduction, reduced, same, outcome, observe_folded lands reduced
    (by rw [outcome]; rfl)⟩

end Folding

/-! Narrower operands. -/

namespace Packing

def narrow (op : Op) : Op := (narrow? op).getD op

theorem run_narrow (input : MachineInput) (state : MachineState) (op : Op) :
    state.run input (narrow op) = state.run input op := by
  unfold narrow
  cases found : narrow? op with
  | none => rfl
  | some other => exact (narrow?_eq_some found).2.run input state

theorem level_packs : Level Packs where
  spares := spares_packs
  length := by
    intro index group replacement packs
    cases packs
    rfl
  still := by
    intro index group replacement packs op member
    cases packs with
    | narrow found =>
      rw [List.mem_singleton.mp member]
      exact (narrow?_eq_some found).2.otherStill

theorem flatten_segments (ops : List Op) :
    (Edits.segments (ops.map fun op => (narrow? op).map fun other => [other]) ops).flatten =
      ops.map narrow := by
  induction ops with
  | nil => rfl
  | cons op rest ih =>
    rw [List.map_cons, List.map_cons, ← ih]
    unfold narrow
    cases narrow? op with
    | none => rfl
    | some other => rfl

theorem ops_of_reduce {program : Program} {reduction : Reduction} (lands : program.JumpsLand)
    (reduced : reduce? program = some reduction) :
    reduction.program.ops = program.ops.map narrow := by
  unfold reduce? at reduced
  dsimp only at reduced
  split at reduced
  · simp at reduced
  · obtain rfl := Option.some.inj reduced
    rw [← flatten_segments]
    exact Program.ops_splice_of_level lands level_packs (rewrites_edits 0 program.ops)

end Packing

/-! Loads of values that are at hand. -/

namespace RepeatedLoads

open MachineState

/-- Whether the operation at a place is a store whose value is forwarded to the load behind it. -/
def Forwards (program : Program) (index : Nat) : Prop :=
  ∃ slot wide, (edits program.ops).1[index]? = some (some [.dup, .store slot wide])

def ReusesAt (program : Program) (index : Nat) (group replacement : List Op) : Prop :=
  Reuses index group replacement ∧ (edits program.ops).1[index]? = some (some replacement)

theorem level_reuses (program : Program) : Level (ReusesAt program) where
  spares := fun reuses => spares_reuses reuses.1
  length := by
    rintro index group replacement ⟨reuses, _⟩
    cases reuses with
    | forwarded => rfl
    | repeated => rfl
  still := by
    rintro index group replacement ⟨reuses, _⟩
    cases reuses with
    | forwarded => simp [Op.target?]
    | repeated => simp [Op.target?]

theorem rewrites_at (program : Program) :
    Rewrites (ReusesAt program) 0 program.ops (edits program.ops).1 := by
  apply (rewrites_edits 0 program.ops).edited
  intro offset
  rw [Nat.zero_add]

variable {program : Program} {code : List Op} {input : MachineInput} {fuel : Nat}
  {state : MachineState}

def AlikeBehind (program : Program) (code : List Op) (input : MachineInput) (fuel : Nat)
    (state : MachineState) : Prop :=
  ∀ less next, fuel = less + 2 → next.next = state.next + 2 → next.stack.length ≤ stackLimit →
    (∀ visited ∈ visits program.ops.toArray input less next,
      visited ∈ visits program.ops.toArray input fuel state) →
    observed code input less next = observed program.ops input less next

/-- Storing a value and loading it again is observed like copying it and storing the copy, if there
is room for the copy. -/
theorem observed_forwarded {slot : UInt32} {wide other : Bool}
    (stores : program.ops[state.next]? = some (.store slot wide))
    (loads : program.ops[state.next + 1]? = some (.load slot other))
    (copies : code[state.next]? = some .dup)
    (storesCopy : code[state.next + 1]? = some (.store slot wide))
    (room : ∀ less, fuel = less + 1 → state.stack.length < stackLimit)
    (further : AlikeBehind program code input fuel state) :
    observed code input fuel state = observed program.ops input fuel state := by
  cases fuel with
  | zero => rw [observed_zero stores, observed_zero copies]
  | succ fuel =>
    have space := room fuel rfl
    cases held : state.stack with
    | nil =>
      have empty : state.past.stack = [] := held
      have storing : run input state.past (.store slot wide) =
          state.past.fault .stackUnderflow := by simp [run, empty]
      have copying : run input state.past .dup = state.past.fault .stackUnderflow := by
        simp [run, empty]
      rw [observed_succ stores, observed_succ copies, storing, copying]
      rfl
    | cons value rest =>
      let stored : MachineState :=
        { state.past with stack := rest, storage := state.storage.put slot value }
      let copied : MachineState := { state.past with stack := value :: value :: rest }
      have storing : run input state.past (.store slot wide) = .running stored :=
        run_store_eq_running.mpr ⟨value, rest, held, rfl⟩
      have copying : run input state.past .dup = .running copied := by
        simp only [run, stack_moved, past, held]
        exact push_eq_running.mpr ⟨held ▸ space, rfl⟩
      have loads : program.ops[stored.next]? = some (.load slot other) := loads
      have storesCopy : code[copied.next]? = some (.store slot wide) := storesCopy
      rw [observed_succ stores, observed_succ copies, storing, copying]
      dsimp only
      cases fuel with
      | zero => rw [observed_zero loads, observed_zero storesCopy]
      | succ less =>
        let next : MachineState := { state.moved (state.next + 2) with
          stack := value :: rest, storage := state.storage.put slot value }
        have loading : run input stored.past (.load slot other) = .running next := by
          refine push_eq_running.mpr ⟨?_, ?_⟩
          · rw [held] at space
            exact Nat.lt_of_succ_lt space
          · have same := Slots.get_put_same slot value state.storage
            exact congrArg (fun top => { state.moved (state.next + 2) with
              stack := top :: rest, storage := state.storage.put slot value }) same.symm
        have storingCopy : run input copied.past (.store slot wide) = .running next :=
          run_store_eq_running.mpr ⟨value, value :: rest, rfl, rfl⟩
        rw [observed_succ loads, observed_succ storesCopy, loading, storingCopy]
        dsimp only
        apply further less next rfl rfl
        · rw [held] at space
          exact Nat.le_of_lt space
        · intro visited member
          rw [visits_succ stores storing, visits_succ loads loading]
          exact List.mem_cons_of_mem _ (List.mem_cons_of_mem _ member)

/-- Loading a value again is observed like copying it. -/
theorem observed_repeated {slot : UInt32} {wide other : Bool}
    (loads : program.ops[state.next]? = some (.load slot wide))
    (loadsAgain : program.ops[state.next + 1]? = some (.load slot other))
    (loadsOnce : code[state.next]? = some (.load slot wide))
    (copies : code[state.next + 1]? = some .dup)
    (further : AlikeBehind program code input fuel state) :
    observed code input fuel state = observed program.ops input fuel state := by
  apply observed_of_same loads loadsOnce rfl
  intro less middle counted ran
  let loaded : MachineState := { state.past with stack := state.storage.get slot :: state.stack }
  obtain rfl : middle = loaded := (push_eq_running.mp ran).2
  have loadsAgain : program.ops[loaded.next]? = some (.load slot other) := loadsAgain
  have copies : code[loaded.next]? = some .dup := copies
  apply observed_of_same loadsAgain copies rfl
  intro fewer next countedAgain ranAgain
  obtain ⟨room, behind⟩ := push_eq_running.mp ranAgain
  apply further fewer next (by omega)
  · rw [behind]
    rfl
  · rw [behind]
    exact room
  · intro visited member
    rw [counted, countedAgain, visits_succ loads ran, visits_succ loadsAgain ranAgain]
    exact List.mem_cons_of_mem _ (List.mem_cons_of_mem _ member)

theorem found_of_drop {ops group rest : List Op} {index : Nat}
    (codeAt : ops.drop index = group ++ rest) (offset : Nat) {op : Op}
    (listed : group[offset]? = some op) : ops[index + offset]? = some op :=
  found_of_group ⟨rest, codeAt.symm⟩ offset listed

theorem drop_behind {ops group rest : List Op} {index : Nat}
    (codeAt : ops.drop index = group ++ rest) :
    ops.drop (index + group.length) = rest := by
  rw [← List.drop_drop, codeAt, List.drop_left]

/-- From each place at which no pair is begun, the changed program is observed to do the same,
unless a store of the original run that is forwarded finds the stack full. -/
theorem observed_reused (lands : program.JumpsLand)
    (arrives : ∀ target : Nat, program.ops[target]? = some .jumpDest →
      Beside (ReusesAt program) target (program.ops.drop target) (code.drop target))
    (beside : Beside (ReusesAt program) state.next (program.ops.drop state.next)
      (code.drop state.next))
    (small : state.stack.length ≤ stackLimit)
    (roomy : ∀ visited ∈ visits program.ops.toArray input fuel state,
      Forwards program visited.next →
      visited.stack.length ≠ stackLimit) :
    observed code input fuel state = observed program.ops input fuel state := by
  induction fuel using Nat.strongRecOn generalizing state with
  | _ fuel ih =>
    -- No jump leads behind the first operation of a group, so that both of its operations are taken
    -- together.
    generalize opsAt : program.ops.drop state.next = ahead at beside
    generalize codeAt : code.drop state.next = other at beside
    cases beside with
    | done =>
      have outside : program.ops[state.next]? = none :=
        List.getElem?_eq_none_iff.mpr (List.drop_eq_nil_iff.mp opsAt)
      have beyond : code[state.next]? = none :=
        List.getElem?_eq_none_iff.mpr (List.drop_eq_nil_iff.mp codeAt)
      rw [observed_off outside, observed_off beyond]
    | @keep _ op rest later behind =>
      have opsAt : program.ops.drop state.next = [op] ++ rest := opsAt
      have codeAt : code.drop state.next = [op] ++ later := codeAt
      have found : program.ops[state.next]? = some op := found_of_drop opsAt 0 rfl
      have there : code[state.next]? = some op := found_of_drop codeAt 0 rfl
      apply observed_of_same found there rfl
      intro less next counted ran
      subst counted
      apply ih less (Nat.lt_succ_self less)
      · rcases arrives_of_run lands found ran with same | landed
        · have opsBehind : program.ops.drop (state.next + 1) = rest := drop_behind opsAt
          have codeBehind : code.drop (state.next + 1) = later := drop_behind codeAt
          rw [same, opsBehind, codeBehind]
          exact behind
        · exact arrives next.next landed
      · exact stack_le_of_run ran small
      · intro visited member
        apply roomy visited
        rw [visits_succ found ran]
        exact List.mem_cons_of_mem state member
    | @group _ group replacement rest later ruled behind =>
      have level := (level_reuses program).length ruled
      have opsBehind := drop_behind opsAt
      have codeBehind := drop_behind codeAt
      rw [level] at codeBehind
      obtain ⟨reuses, edit⟩ := ruled
      have further (pair : group.length = 2) : AlikeBehind program code input fuel state := by
        intro less next counted place bounded visited
        rw [pair] at opsBehind codeBehind behind
        apply ih less (by omega)
        · rw [place, opsBehind, codeBehind]
          exact behind
        · exact bounded
        · intro other member
          exact roomy other (visited other member)
      cases reuses with
      | @forwarded slot wide loadWide =>
        have stores := found_of_drop opsAt 0 rfl
        have room (less : Nat) (counted : fuel = less + 1) : state.stack.length < stackLimit := by
          subst counted
          exact Nat.lt_of_le_of_ne small
            (roomy state (mem_visits_self stores less) ⟨slot, wide, edit⟩)
        exact observed_forwarded stores (found_of_drop opsAt 1 rfl) (found_of_drop codeAt 0 rfl)
          (found_of_drop codeAt 1 rfl) room (further rfl)
      | repeated =>
        exact observed_repeated (found_of_drop opsAt 0 rfl) (found_of_drop opsAt 1 rfl)
          (found_of_drop codeAt 0 rfl) (found_of_drop codeAt 1 rfl) (further rfl)

theorem ops_of_reduce {reduction : Reduction} (lands : program.JumpsLand)
    (reduced : reduce? program = some reduction) :
    reduction.program.ops = ((edits program.ops).1.segments program.ops).flatten := by
  unfold reduce? at reduced
  dsimp only at reduced
  split at reduced
  · simp at reduced
  · obtain rfl := Option.some.inj reduced
    exact Program.ops_splice_of_level lands (level_reuses program) (rewrites_at program)

end RepeatedLoads

def Program.visits (program : Program) (fuel : Nat) (input : MachineInput) : List MachineState :=
  MachineState.visits program.ops.toArray input fuel (start input)

/-- Where all jumps lead to jump destinations, narrowing operands changes nothing that can be
observed of any run, and using values again nothing of a run in which no store that is forwarded
finds the stack full; however the run ends. -/
theorem Program.observe_in_lockstep {program : Program} (lands : program.JumpsLand) (fuel : Nat)
    (input : MachineInput) :
    (∀ reduction, Packing.reduce? program = some reduction →
      reduction.program.observe fuel input = program.observe fuel input) ∧
    ∀ reduction, RepeatedLoads.reduce? program = some reduction →
      (∀ state ∈ program.visits fuel input, RepeatedLoads.Forwards program state.next →
        state.stack.length ≠ stackLimit) →
      reduction.program.observe fuel input = program.observe fuel input := by
  constructor
  · intro reduction reduced
    rw [observe_eq, observe_eq, Packing.ops_of_reduce lands reduced]
    exact MachineState.observed_map (Packing.run_narrow input) fuel (start input)
  · intro reduction reduced roomy
    rw [observe_eq, observe_eq, RepeatedLoads.ops_of_reduce lands reduced]
    apply RepeatedLoads.observed_reused lands
    · intro target landed
      exact (RepeatedLoads.rewrites_at program).beside_at
        (RepeatedLoads.level_reuses program) landed
    · exact (RepeatedLoads.rewrites_at program).beside
    · exact Nat.zero_le stackLimit
    · exact roomy

/-- A value is stored and loaded three times in wide and narrow forms. With enough steps the run
faults at the third sum; with two steps it stops between the store and the first load. -/
theorem Program.observe_in_lockstep_of_fault :
    let program : Program :=
      ⟨[.arg 0, .store 3 true, .load 3 false, .load 3 true, .load 3 true, .binary .add,
        .binary .add, .binary .add]⟩
    let input : MachineInput := { MachineInput.zero with args := [5] }
    program.JumpsLand ∧ RepeatedLoads.Forwards program 1 ∧
      (program.observe 20 input).outcome = .fault .stackUnderflow ∧
      (program.observe 2 input).outcome = .outOfFuel ∧
      ∃ packed reused, Packing.reduce? program = some packed ∧ RepeatedLoads.reduce? program =
        some reused ∧
        reused.program.ops.take 5 = [.arg 0, .dup, .store 3 true, .load 3 true, .dup] ∧
        ∀ fuel ∈ [20, 2], packed.program.observe fuel input = program.observe fuel input ∧
          reused.program.observe fuel input = program.observe fuel input := by
  intro program input
  have lands : program.JumpsLand := Program.strayJump?_eq_none.mp (by decide)
  have forwards : RepeatedLoads.Forwards program 1 := ⟨3, true, by decide⟩
  have packs : (Packing.reduce? program).isSome = true := by decide +kernel
  have reuses : (RepeatedLoads.reduce? program).map
    (fun reduction => reduction.program.ops.take 5) =
      some [.arg 0, .dup, .store 3 true, .load 3 true, .dup] := by decide +kernel
  have roomy : ∀ fuel ∈ [20, 2], ∀ state ∈ program.visits fuel input, state.stack.length < 4 := by
    decide +kernel
  obtain ⟨packed, packedBy⟩ := Option.isSome_iff_exists.mp packs
  obtain ⟨reused, reusedBy, begins⟩ := Option.map_eq_some_iff.mp reuses
  refine ⟨lands, forwards, by decide +kernel, by decide +kernel, packed, reused, packedBy,
    reusedBy, begins, ?_⟩
  intro fuel listed
  obtain ⟨packedAlike, reusedAlike⟩ := observe_in_lockstep lands fuel input
  constructor
  · exact packedAlike packed packedBy
  · apply reusedAlike reused reusedBy
    intro state visited _ full
    have small := roomy fuel listed state visited
    rw [full] at small
    exact absurd small (by decide)

end Bytecode

end Covenant
