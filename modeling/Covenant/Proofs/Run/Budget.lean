import Covenant.Run.Interpreter

/-!
What the limits of a run decide. They decide whether a run ends with a report, but not with which
one: with more fuel or a greater call depth, the report stays the same.
-/

namespace Covenant

def Setting.withDepth (setting : Setting) (depthLimit : Nat) : Setting :=
  { setting with depthLimit }

namespace Running

variable {setting : Setting} {state : Running}

theorem enterCall_withDepth (frame : Frame) (location : Location) (dest : Option ValueId)
    (name : String) (args : List ValueId) {depth : Nat} (deeper : setting.depthLimit ≤ depth) :
    state.enterCall (setting.withDepth depth) frame location dest name args =
        state.enterCall setting frame location dest name args ∨
      state.enterCall setting frame location dest name args =
        .error (.callDepthExceeded setting.depthLimit) := by
  unfold enterCall
  simp only [Setting.withDepth]
  cases setting.contract.function? name with
  | none => exact .inl rfl
  | some callee =>
    cases args.mapM frame.get? with
    | error problem => exact .inl rfl
    | ok cells =>
      simp only [bind, Except.bind]
      by_cases tooDeep : state.callers.length + 1 > setting.depthLimit
      · right
        simp only [tooDeep, if_true]
      · left
        have fits : ¬ state.callers.length + 1 > depth := by omega
        simp only [tooDeep, fits, if_false]

theorem step_eq_withDepth (state : Running) {depth : Nat} (deeper : setting.depthLimit ≤ depth) :
    state.step (setting.withDepth depth) = state.step setting ∨
      state.step setting = .error (.callDepthExceeded setting.depthLimit) := by
  unfold step
  split
  · rename_i instruction rest pending
    cases instruction.node with
    | call dest name args => exact enterCall_withDepth _ _ _ _ _ deeper
    | _ => exact .inl rfl
  · exact .inl rfl

theorem run_eq_withDepth (setting : Setting) (state : Running) {depth : Nat}
    (deeper : setting.depthLimit ≤ depth) (budget fuel : Nat) :
    run (setting.withDepth depth) budget fuel state = run setting budget fuel state ∨
      run setting budget fuel state = .error (.callDepthExceeded setting.depthLimit) := by
  induction fuel generalizing state with
  | zero => exact .inl rfl
  | succ fuel ih =>
    simp only [run]
    rcases step_eq_withDepth state deeper with same | exceeded
    · rw [same]
      cases state.step setting with
      | error problem => exact .inl rfl
      | ok next =>
        cases next with
        | ended ending effects => exact .inl rfl
        | running next => exact ih next
    · right
      rw [exceeded]

theorem run_eq_of_le (setting : Setting) (state : Running) (budget other : Nat) {fuel more : Nat}
    (enough : fuel ≤ more) :
    run setting other more state = run setting budget fuel state ∨
      run setting budget fuel state = .error (.outOfFuel budget) := by
  induction fuel generalizing state more with
  | zero => exact .inr rfl
  | succ fuel ih =>
    cases more with
    | zero => omega
    | succ more =>
      simp only [run]
      cases state.step setting with
      | error problem => exact .inl rfl
      | ok next =>
        cases next with
        | ended ending effects => exact .inl rfl
        | running next => exact ih next (by omega)

theorem step_withDepth {next : Step} {depth : Nat} (stepped : state.step setting = .ok next)
    (deeper : setting.depthLimit ≤ depth) : state.step (setting.withDepth depth) = .ok next := by
  rcases step_eq_withDepth state deeper with same | exceeded
  · exact same.trans stepped
  · simp [exceeded] at stepped

theorem run_withDepth {budget fuel depth : Nat} {result : Ending × Effects}
    (ran : run setting budget fuel state = .ok result) (deeper : setting.depthLimit ≤ depth) :
    run (setting.withDepth depth) budget fuel state = .ok result := by
  rcases run_eq_withDepth setting state deeper budget fuel with same | exceeded
  · exact same.trans ran
  · simp [exceeded] at ran

theorem run_of_le {budget other fuel more : Nat} {result : Ending × Effects}
    (ran : run setting budget fuel state = .ok result) (enough : fuel ≤ more) :
    run setting other more state = .ok result := by
  rcases run_eq_of_le setting state budget other enough with same | spent
  · exact same.trans ran
  · simp [spent] at ran

end Running

def Inputs.setting (inputs : Inputs) (contract : Contract) (limits : RunLimits) : Setting :=
  { contract, env := inputs.env, callsSucceed := inputs.callsSucceed, depthLimit :=
    limits.callDepth }

def Function.entryCells (function : Function) (args : List Nat) : List Cell :=
  List.zipWith (fun (param : String × Ty) arg => Cell.clean (param.2.wrap arg)) function.params args

namespace Contract

variable {contract : Contract} {name : String} {function : Function} {inputs : Inputs}

theorem run_eq_bind (found : contract.function? name = some function)
    (count : function.params.length = inputs.args.length) (limits : RunLimits) :
    contract.run limits name inputs =
      (function.frame (function.entryCells inputs.args) >>= fun frame =>
      (Running.run (inputs.setting contract limits) limits.fuel limits.fuel
        ⟨frame, [], Effects.start inputs.storage⟩).map
          fun ended => Contract.report inputs.storage ended.1 ended.2) := by
  unfold run
  simp only [found, count, bne_self_eq_false, Bool.false_eq_true, if_false]
  rfl

theorem run_eq_map (found : contract.function? name = some function)
    (count : function.params.length = inputs.args.length) {frame : Frame}
    (framed : function.frame (function.entryCells inputs.args) = .ok frame) (limits : RunLimits) :
    contract.run limits name inputs =
      (Running.run (inputs.setting contract limits) limits.fuel limits.fuel
        ⟨frame, [], Effects.start inputs.storage⟩).map
          fun ended => Contract.report inputs.storage ended.1 ended.2 := by
  rw [run_eq_bind found count, framed]
  rfl

theorem run_eq_ok_iff {limits : RunLimits} {report : Report} :
    contract.run limits name inputs = .ok report ↔
      ∃ function frame ending effects, contract.function? name = some function ∧
        function.params.length = inputs.args.length ∧
        function.frame (function.entryCells inputs.args) = .ok frame ∧
        Running.run (inputs.setting contract limits) limits.fuel limits.fuel
          { frame, callers := [], effects := Effects.start inputs.storage } =
            .ok (ending, effects) ∧
        report = Contract.report inputs.storage ending effects := by
  constructor
  · intro ran
    cases found : contract.function? name with
    | none => simp [run, found] at ran
    | some function =>
      by_cases count : function.params.length = inputs.args.length
      · rw [run_eq_bind found count] at ran
        cases framed : function.frame (function.entryCells inputs.args) with
        | error problem => simp [framed, bind, Except.bind] at ran
        | ok frame =>
          rw [framed] at ran
          cases ended : Running.run (inputs.setting contract limits) limits.fuel limits.fuel
              ⟨frame, [], Effects.start inputs.storage⟩ with
          | error problem => simp [ended, bind, Except.bind, Except.map] at ran
          | ok result =>
            simp only [ended, bind, Except.bind, Except.map, Except.ok.injEq] at ran
            exact ⟨function, frame, result.1, result.2, rfl, count, framed, ended, ran.symm⟩
      · simp [run, found, count] at ran
  · rintro ⟨function, frame, ending, effects, found, count, framed, ended, rfl⟩
    rw [run_eq_map found count framed, ended]
    rfl

/-- Greater limits leave the outcome of a call as it is, unless the smaller ones did not suffice. -/
theorem run_eq_of_limits_le (contract : Contract) (name : String) (inputs : Inputs)
    {limits greater : RunLimits} (fuel : limits.fuel ≤ greater.fuel)
    (depth : limits.callDepth ≤ greater.callDepth) :
    contract.run greater name inputs = contract.run limits name inputs ∨
      contract.run limits name inputs = .error (.outOfFuel limits.fuel) ∨
      contract.run limits name inputs = .error (.callDepthExceeded limits.callDepth) := by
  cases found : contract.function? name with
  | none =>
    left
    simp only [run, found]
  | some function =>
    by_cases count : function.params.length = inputs.args.length
    · cases framed : function.frame (function.entryCells inputs.args) with
      | error problem =>
        left
        rw [run_eq_bind found count, run_eq_bind found count, framed]
        rfl
      | ok frame =>
        rw [run_eq_map found count framed, run_eq_map found count framed]
        -- First the depth is raised, then the fuel.
        have deeper : Running.run (inputs.setting contract greater) limits.fuel limits.fuel _ = _ ∨
            _ :=
          Running.run_eq_withDepth (inputs.setting contract limits)
            ⟨frame, [], Effects.start inputs.storage⟩ depth limits.fuel limits.fuel
        have longer := Running.run_eq_of_le (inputs.setting contract greater)
          ⟨frame, [], Effects.start inputs.storage⟩ limits.fuel greater.fuel fuel
        rcases deeper with same | exceeded
        · rw [same] at longer
          rcases longer with also | spent
          · exact .inl (by rw [also])
          · exact .inr (.inl (by rw [spent]; rfl))
        · exact .inr (.inr (by rw [exceeded]; rfl))
    · left
      simp [run, found, count]

theorem run_of_limits_le {limits greater : RunLimits} {report : Report}
    (ran : contract.run limits name inputs = .ok report) (fuel : limits.fuel ≤ greater.fuel)
    (depth : limits.callDepth ≤ greater.callDepth) :
    contract.run greater name inputs = .ok report := by
  rcases run_eq_of_limits_le contract name inputs fuel depth with same | spent | exceeded
  · exact same.trans ran
  · simp [spent] at ran
  · simp [exceeded] at ran

end Contract

/-!
How running code ends if it may take as many steps and nest calls as deeply as it wants, and that it
cannot have ended before it has taken as many steps as it needs.
-/

namespace Running

def Leads (setting : Setting) (state next : Running) : Prop :=
  ∃ depth, state.step (setting.withDepth depth) = .ok (.running next)

inductive Reaches (setting : Setting) : Running → Running → Prop
  | refl (state) : Reaches setting state state
  | step {state middle final} : Leads setting state middle → Reaches setting middle final →
      Reaches setting state final

def EndsWith (setting : Setting) (state : Running) (ending : Ending) (effects : Effects) : Prop :=
  ∃ depth budget fuel, run (setting.withDepth depth) budget fuel state = .ok (ending, effects)

def Outlasts (setting : Setting) (steps : Nat) (state : Running) : Prop :=
  ∀ depth budget result, run (setting.withDepth depth) budget steps state ≠ .ok result

variable {setting : Setting} {state middle final : Running}

theorem step_deeper {depth more : Nat} {next : Step}
    (stepped : state.step (setting.withDepth depth) = .ok next) (deeper : depth ≤ more) :
    state.step (setting.withDepth more) = .ok next := by
  have deep := step_withDepth stepped deeper
  exact deep

theorem run_deeper {depth more budget fuel : Nat} {result : Ending × Effects}
    (ran : run (setting.withDepth depth) budget fuel state = .ok result) (deeper : depth ≤ more) :
    run (setting.withDepth more) budget fuel state = .ok result := by
  have deep := run_withDepth ran deeper
  exact deep

theorem step_unique {depth other : Nat} {first second : Step}
    (left : state.step (setting.withDepth depth) = .ok first)
    (right : state.step (setting.withDepth other) = .ok second) : first = second := by
  have leftMax := step_deeper left (Nat.le_max_left depth other)
  have rightMax := step_deeper right (Nat.le_max_right depth other)
  rw [leftMax] at rightMax
  exact Except.ok.inj rightMax

theorem Reaches.trans (first : Reaches setting state middle)
    (second : Reaches setting middle final) :
    Reaches setting state final := by
  induction first with
  | refl => exact second
  | step leads _ ih => exact .step leads (ih second)

theorem Leads.reaches (leads : Leads setting state final) : Reaches setting state final :=
  .step leads (.refl final)

theorem Leads.endsWith {ending : Ending} {effects : Effects} (leads : Leads setting state middle)
    (ends : EndsWith setting middle ending effects) : EndsWith setting state ending effects := by
  obtain ⟨depth, stepped⟩ := leads
  obtain ⟨other, budget, fuel, ran⟩ := ends
  refine ⟨max depth other, budget, fuel + 1, ?_⟩
  simp only [run, step_deeper stepped (Nat.le_max_left depth other)]
  exact run_deeper ran (Nat.le_max_right depth other)

theorem Reaches.endsWith {ending : Ending} {effects : Effects}
    (reaches : Reaches setting state middle) (ends : EndsWith setting middle ending effects) :
    EndsWith setting state ending effects := by
  induction reaches with
  | refl => exact ends
  | step leads _ ih => exact leads.endsWith (ih ends)

theorem Leads.endsWith_rest {ending : Ending} {effects : Effects}
    (leads : Leads setting state middle) (ends : EndsWith setting state ending effects) :
    EndsWith setting middle ending effects := by
  obtain ⟨depth, stepped⟩ := leads
  obtain ⟨other, budget, fuel, ran⟩ := ends
  cases fuel with
  | zero => simp [run] at ran
  | succ fuel =>
    simp only [run] at ran
    cases taken : state.step (setting.withDepth other) with
    | error problem => simp [taken] at ran
    | ok next =>
      obtain rfl := step_unique taken stepped
      rw [taken] at ran
      exact ⟨other, budget, fuel, ran⟩

theorem Reaches.endsWith_rest {ending : Ending} {effects : Effects}
    (reaches : Reaches setting state middle) (ends : EndsWith setting state ending effects) :
    EndsWith setting middle ending effects := by
  induction reaches with
  | refl => exact ends
  | step leads _ ih => exact ih (leads.endsWith_rest ends)

theorem endsWith_of_step {depth : Nat} {ending : Ending} {effects : Effects}
    (stepped : state.step (setting.withDepth depth) = .ok (.ended ending effects)) :
    EndsWith setting state ending effects :=
  ⟨depth, 0, 1, by simp only [run, stepped]⟩

theorem EndsWith.unique {ending other : Ending} {effects others : Effects}
    (left : EndsWith setting state ending effects) (right : EndsWith setting state other others) :
    ending = other ∧ effects = others := by
  obtain ⟨depth, budget, fuel, ran⟩ := left
  obtain ⟨depth', budget', fuel', ran'⟩ := right
  have deep := run_deeper ran (Nat.le_max_left depth depth')
  have deep' := run_deeper ran' (Nat.le_max_right depth depth')
  have first : run (setting.withDepth (max depth depth')) 0 (max fuel fuel') state =
      .ok (ending, effects) :=
    run_of_le deep (Nat.le_max_left fuel fuel')
  rw [run_of_le deep' (Nat.le_max_right fuel fuel')] at first
  have pair := Except.ok.inj first
  exact ⟨(congrArg Prod.fst pair).symm, (congrArg Prod.snd pair).symm⟩

theorem outlasts_zero (state : Running) : Outlasts setting 0 state := by
  intro depth budget result ran
  simp [run] at ran

theorem Outlasts.mono {steps fewer : Nat} (lasts : Outlasts setting steps state)
    (less : fewer ≤ steps) :
    Outlasts setting fewer state := by
  intro depth budget result ran
  exact lasts depth budget result (run_of_le ran less)

theorem Leads.outlasts {steps : Nat} (leads : Leads setting state middle)
    (lasts : Outlasts setting steps middle) :
    Outlasts setting (steps + 1) state := by
  obtain ⟨depth, stepped⟩ := leads
  intro other budget result ran
  simp only [run] at ran
  cases taken : state.step (setting.withDepth other) with
  | error problem => simp [taken] at ran
  | ok next =>
    have same := step_unique taken stepped
    subst same
    rw [taken] at ran
    exact lasts other budget result ran

theorem Reaches.outlasts {steps : Nat} (reaches : Reaches setting state middle)
    (lasts : Outlasts setting steps middle) : Outlasts setting steps state := by
  induction reaches with
  | refl => exact lasts
  | step leads _ ih => exact (leads.outlasts (ih lasts)).mono (Nat.le_succ _)

end Running

end Covenant
