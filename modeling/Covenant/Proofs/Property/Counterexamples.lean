import Covenant.Proofs.Property.Proven
import Covenant.Proofs.Run.Budget
import Covenant.Proofs.Run.Storage
import Covenant.Property.Verifier
import Covenant.Property.Witness

/-!
How the search for counterexamples chooses inputs: every pool offers a value of its type, and every
attempt takes a value that its pool offers.
-/

namespace Covenant

def InputSlot.Admits (contract : Contract) : InputSlot → Nat → Prop
  | .arg, _ => True
  | .env var, value => value ≤ (Ty.ofEnv var).maxValue
  | .field name, value => ∃ field, contract.field? name = some field ∧ field.ty.isMap = false ∧
      value ≤ field.ty.content.maxValue
  | .entries name, value => ∃ field, contract.field? name = some field ∧ field.ty.isMap = true ∧
      value ≤ field.ty.content.maxValue

namespace Witness

/-! Pools. -/

theorem zero_mem_pool (ty : Ty) (constants : List Nat) : 0 ∈ pool ty constants := by
  unfold pool
  rw [List.mem_eraseDups]
  cases ty <;> simp [addresses]

theorem pool_pos (ty : Ty) (constants : List Nat) : 0 < (pool ty constants).length :=
  List.length_pos_of_mem (zero_mem_pool ty constants)

theorem one_le_maxValue {ty : Ty} (sized : ty.Sized) : 1 ≤ ty.maxValue := by
  cases ty with
  | uint width =>
    have small : 2 ^ 1 ≤ 2 ^ min width 128 :=
      Nat.pow_le_pow_right (by decide) (by have := sized.1; omega)
    simp only [Ty.maxValue, Ty.bound, Nat.pow_eq]
    omega
  | bool => decide
  | address => decide
  | map key value => exact (by decide : 1 ≤ wordBound - 1)

theorem pool_le {ty : Ty} (sized : ty.Sized) {constants : List Nat} {value : Nat}
    (member : value ∈ pool ty constants) : value ≤ ty.maxValue := by
  have numbers (other : Ty) (least : 1 ≤ other.maxValue)
      (listed : value ∈ [0, 1] ++ (constants.flatMap fun value =>
        [value, (value + 1) % wordBound, (value + wordBound - 1) % wordBound].map other.wrap) ++
        [other.maxValue, other.maxValue - 1, other.maxValue / 2]) : value ≤ other.maxValue := by
    simp only [List.mem_append, List.mem_flatMap, List.mem_map] at listed
    rcases listed with (few | ⟨constant, _, near, _, rfl⟩) | large
    · simp only [List.mem_cons, List.not_mem_nil, or_false] at few
      omega
    · have := other.wrap_lt near
      unfold Ty.maxValue
      omega
    · simp only [List.mem_cons, List.not_mem_nil, or_false] at large
      omega
  have least := one_le_maxValue sized
  unfold pool at member
  rw [List.mem_eraseDups] at member
  cases ty with
  | address =>
    simp only [addresses, List.mem_cons, List.not_mem_nil, or_false] at member
    rcases member with rfl | rfl | rfl <;> decide
  | bool =>
    simp only [List.mem_cons, List.not_mem_nil, or_false] at member
    rcases member with rfl | rfl <;> decide
  | uint width => exact numbers (.uint width) least member
  | map key inner => exact numbers (.map key inner) least member

/-! Choices. -/

def poolSizes (pools : Pools) : List Nat := pools.map fun entry => entry.2.length

def DiffersOnce (sizes choice : List Nat) : Prop :=
  ∃ before size after place, sizes = before ++ size :: after ∧ 0 < place ∧ place < size ∧
    choice = before.map (fun _ => 0) ++ place :: after.map fun _ => 0

abbrev Within (sizes choice : List Nat) : Prop :=
  List.Forall₂ (fun size place => place < size) sizes choice

theorem within_first {sizes : List Nat} (positive : ∀ size ∈ sizes, 0 < size) :
    Within sizes (sizes.map fun _ => 0) := by
  induction sizes with
  | nil => exact .nil
  | cons size sizes ih =>
    exact .cons (positive size List.mem_cons_self)
      (ih fun other member => positive other (List.mem_cons_of_mem _ member))

theorem within_vary {sizes : List Nat} (positive : ∀ size ∈ sizes, 0 < size) (rest : Nat) :
    Within sizes (vary rest sizes) := by
  induction sizes generalizing rest with
  | nil => exact .nil
  | cons size sizes ih =>
    have others : ∀ other ∈ sizes, 0 < other := fun other member =>
      positive other (List.mem_cons_of_mem _ member)
    simp only [vary]
    split
    · exact .cons (by omega) (within_first others)
    · exact .cons (positive size List.mem_cons_self) (ih others _)

theorem within_scrambled {sizes : List Nat} (positive : ∀ size ∈ sizes, 0 < size)
    (number : Nat → Nat) (start : Nat) :
    Within sizes ((sizes.zipIdx start).map fun entry => number entry.2 % entry.1) := by
  induction sizes generalizing start with
  | nil => exact .nil
  | cons size sizes ih =>
    refine .cons (Nat.mod_lt _ (positive size List.mem_cons_self)) ?_
    exact ih (fun other member => positive other (List.mem_cons_of_mem _ member)) (start + 1)

theorem within_choose {sizes : List Nat} (positive : ∀ size ∈ sizes, 0 < size) (attempt : Nat) :
    Within sizes (choose attempt sizes) := by
  unfold choose
  split
  · exact within_first positive
  · split
    · exact within_vary positive _
    · exact within_scrambled positive
        (fun slot => (scramble (.ofNat attempt) (.ofNat slot)).toNat) 0

theorem vary_differsOnce {sizes : List Nat} {rest : Nat} (few : rest < variations sizes) :
    DiffersOnce sizes (vary rest sizes) := by
  induction sizes generalizing rest with
  | nil => simp [variations, total] at few
  | cons size sizes ih =>
    simp only [vary]
    split
    · exact ⟨[], size, sizes, rest + 1, rfl, by omega, by omega, rfl⟩
    · have fewer : rest - (size - 1) < variations sizes := by
        simp only [variations, List.map_cons, total] at few ⊢
        omega
      obtain ⟨before, other, after, place, rfl, positive, inside, same⟩ := ih fewer
      exact ⟨size :: before, other, after, place, rfl, positive, inside, by rw [same]; rfl⟩

theorem exists_vary {sizes choice : List Nat} (differs : DiffersOnce sizes choice) :
    ∃ rest, rest < variations sizes ∧ vary rest sizes = choice := by
  obtain ⟨before, size, after, place, rfl, positive, inside, rfl⟩ := differs
  induction before with
  | nil =>
    refine ⟨place - 1, ?_, ?_⟩
    · simp only [List.nil_append, variations, List.map_cons, total]
      omega
    · have here : place - 1 < size - 1 := by omega
      have back : place - 1 + 1 = place := by omega
      simp only [List.nil_append, vary, here, if_true, back, List.map_nil]
  | cons first before ih =>
    obtain ⟨rest, few, same⟩ := ih
    refine ⟨first - 1 + rest, ?_, ?_⟩
    · simp only [List.cons_append, variations, List.map_cons, total] at few ⊢
      omega
    · have later : ¬ first - 1 + rest < first - 1 := by omega
      have left : first - 1 + rest - (first - 1) = rest := by omega
      simp only [List.cons_append, vary, later, if_false, left, same, List.map_cons]

/-! The values that a choice takes. -/

theorem pools_positive (contract : Contract) (function : Function) :
    ∀ size ∈ poolSizes (pools contract function), 0 < size := by
  intro size member
  obtain ⟨entry, listed, rfl⟩ := List.mem_map.mp member
  simp only [pools, List.mem_append, List.mem_map] at listed
  rcases listed with (⟨param, _, rfl⟩ | ⟨var, _, rfl⟩) | stored
  · exact pool_pos _ _
  · exact pool_pos _ _
  · split at stored
    · simp at stored
    · obtain ⟨field, _, rfl⟩ := List.mem_map.mp stored
      split <;> exact pool_pos _ _

theorem pools_admit {contract : Contract} (formed : contract.WellFormed) {function : Function}
    {slot : InputSlot} {values : List Nat} (listed : (slot, values) ∈ pools contract function)
    {value : Nat} (member : value ∈ values) : slot.Admits contract value := by
  simp only [pools, List.mem_append, List.mem_map] at listed
  rcases listed with (⟨param, _, same⟩ | ⟨var, _, same⟩) | stored
  · obtain ⟨rfl, rfl⟩ := Prod.mk.inj same
    trivial
  · obtain ⟨rfl, rfl⟩ := Prod.mk.inj same
    exact pool_le (by cases var <;> simp [Ty.ofEnv, Ty.Sized, Ty.defaultInteger]) member
  · split at stored
    · simp at stored
    · obtain ⟨field, declared, same⟩ := List.mem_map.mp stored
      have sized := (formed.fieldTypes field declared).content
      have found := formed.field? declared
      cases held : field.ty with
      | map key inner =>
        rw [held] at same sized
        obtain ⟨rfl, rfl⟩ := Prod.mk.inj same
        exact ⟨field, found, by rw [held]; rfl, by rw [held]; exact pool_le sized member⟩
      | _ =>
        rw [held] at same sized
        obtain ⟨rfl, rfl⟩ := Prod.mk.inj same
        exact ⟨field, found, by rw [held]; rfl, by rw [held]; exact pool_le sized member⟩

theorem mem_pick {pools : Pools} {choice : List Nat} (within : Within (poolSizes pools) choice)
    {slot : InputSlot} {value : Nat} (member : (slot, value) ∈ pick pools choice) :
    ∃ values, (slot, values) ∈ pools ∧ value ∈ values := by
  induction pools generalizing choice with
  | nil => simp [pick] at member
  | cons entry rest ih =>
    cases within with
    | cons inside others =>
      rename_i place places
      rcases List.mem_cons.mp member with same | later
      · obtain ⟨rfl, rfl⟩ := Prod.mk.inj same
        refine ⟨entry.2, List.mem_cons_self, ?_⟩
        rw [← List.getElem_eq_getD (h := inside) 0]
        exact List.getElem_mem inside
      · obtain ⟨values, listed, found⟩ := ih others later
        exact ⟨values, List.mem_cons_of_mem _ listed, found⟩

end Witness

/-!
Counterexamples are genuine: the inputs that are reported fit their types and start from a state
that the property allows, and running the function on them breaks the property, whatever larger
budget the run is given.
-/

def Report.Breaks (contract : Contract) (limits : RunLimits) (inputs : Inputs) (report : Report) :
    Rule → Prop
  | .boundedBy field bound =>
    ∃ limit, Witness.boundValue? contract limits inputs.env report.storage bound = some limit ∧
      limit < report.storage.get ⟨field, none⟩
  | .noUnderflow field =>
    ∃ store ∈ report.stores, store.place.field = field ∧ store.underflowed = true
  | .ownerOnly field owner =>
    inputs.env.sender ≠ inputs.storage.get ⟨owner, none⟩ ∧ ∃ store ∈ report.stores,
      store.place.field = field

/-- Whether the start of a run of a function is one that a rule speaks about. -/
def Inputs.StartsWithin (contract : Contract) (limits : RunLimits) (function : Function)
    (inputs : Inputs) :
    Rule → Prop
  | .boundedBy field bound =>
    function.kind ≠ .init →
      ∃ limit, Witness.boundValue? contract limits inputs.env inputs.storage bound = some limit ∧
        inputs.storage.get ⟨field, none⟩ ≤ limit
  | .noUnderflow _ => True
  | .ownerOnly _ _ => True

/-- What makes a counterexample genuine. The limits of the runs are at least those that the search
has used. -/
structure Counterexample.Genuine (contract : Contract) (limits : VerifierLimits) (rule : Rule)
    (function : Function) (counterexample : Counterexample) : Prop where
  found : contract.function? counterexample.function = some function
  entry : function.isEntryPoint = true
  notInit : ∀ field owner, rule = .ownerOnly field owner → function.kind ≠ .init
  args : function.Accepts counterexample.inputs.args
  env : counterexample.inputs.env.Fits
  storage : ∀ stored ∈ counterexample.inputs.storage, Storage.Admits contract stored.1 stored.2
  deployed : function.kind = .init → counterexample.inputs.storage = []
  start : ∀ greater : RunLimits, RunLimits.standard.fuel ≤ greater.fuel → limits.maxCallDepth ≤
    greater.callDepth →
    counterexample.inputs.StartsWithin contract greater function rule
  broken : ∀ greater : RunLimits, RunLimits.standard.fuel ≤ greater.fuel → limits.maxCallDepth ≤
    greater.callDepth →
    ∃ report, contract.run greater counterexample.function counterexample.inputs = .ok report ∧
      report.result.isSuccess = true ∧ report.trace = counterexample.trace ∧
      report.Breaks contract greater counterexample.inputs rule

namespace Witness

variable {contract : Contract} {function : Function}

/-! The inputs made of chosen values. -/

def chosenEnvironment (values : List (InputSlot × Nat)) : Environment :=
  values.foldl (fun env (slot, value) =>
    match slot with
    | .env var => env.put value var
    | _ => env) Environment.zero

theorem fits_chosenEnvironment {values : List (InputSlot × Nat)}
    (admitted : ∀ entry ∈ values, entry.1.Admits contract entry.2) :
    (chosenEnvironment values).Fits := by
  refine List.foldlRecOn values _ Environment.fits_zero ?_
  intro env fits entry member
  obtain ⟨slot, value⟩ := entry
  cases slot with
  | env var => exact fits.put (admitted _ member)
  | _ => exact fits

theorem inputs_env_fits {values : List (InputSlot × Nat)}
    (admitted : ∀ entry ∈ values, entry.1.Admits contract entry.2) : (inputs values).env.Fits := by
  have chosen := fits_chosenEnvironment admitted
  intro var
  cases var with
  | sender => exact chosen .sender
  | value => exact chosen .value
  | timestamp => exact chosen .timestamp
  | blockNumber => exact (by decide : 1 ≤ Ty.defaultInteger.maxValue)
  | origin => exact chosen .sender

theorem inputs_storage_admits {values : List (InputSlot × Nat)}
    (admitted : ∀ entry ∈ values, entry.1.Admits contract entry.2) :
    ∀ stored ∈ (inputs values).storage, Storage.Admits contract stored.1 stored.2 := by
  unfold inputs
  dsimp only
  refine List.foldlRecOn (motive := fun (storage : Storage) => ∀ stored ∈ storage,
    Storage.Admits contract stored.1 stored.2) values _ (by simp) ?_
  intro storage kept entry member
  obtain ⟨slot, value⟩ := entry
  have allowed := admitted _ member
  cases slot with
  | field name =>
    intro stored inside
    rcases Storage.mem_put inside with rfl | older
    · obtain ⟨field, found, scalar, small⟩ := allowed
      exact ⟨field, found, by simp [scalar], small⟩
    · exact kept stored older
  | entries name =>
    refine List.foldlRecOn (motive := fun (storage : Storage) => ∀ stored ∈ storage,
      Storage.Admits contract stored.1 stored.2) _ _ kept ?_
    intro filled earlier key _ stored inside
    rcases Storage.mem_put inside with rfl | older
    · obtain ⟨field, found, keyed, small⟩ := allowed
      exact ⟨field, found, by simp [keyed], small⟩
    · exact earlier stored older
  | arg => exact kept
  | env var => exact kept

theorem inputs_storage_nil {values : List (InputSlot × Nat)}
    (none : ∀ entry ∈ values, entry.1 = .arg ∨ ∃ var, entry.1 = .env var) :
    (inputs values).storage = [] := by
  unfold inputs
  dsimp only
  refine List.foldlRecOn (motive := fun storage => storage = []) values _ rfl ?_
  intro storage empty entry member
  obtain ⟨slot, value⟩ := entry
  rcases none _ member with same | ⟨var, same⟩ <;>
    · simp only at same
      rw [same, empty]

theorem pick_args {params : List (String × Ty)} {constants : List Nat} {rest : Pools}
    {choice : List Nat} (sized : ∀ param ∈ params, param.2.Sized)
    (others : ∀ entry ∈ rest, entry.1 ≠ .arg)
    (within : Within
      (poolSizes (params.map (fun param => (InputSlot.arg, pool param.2 constants)) ++ rest))
      choice) :
    List.Forall₂ (fun param arg => arg ≤ param.2.maxValue) params
      ((pick (params.map (fun param => (InputSlot.arg, pool param.2 constants)) ++ rest)
        choice).filterMap fun (slot, value) => if slot == .arg then some value else none) := by
  induction params generalizing choice with
  | nil =>
    have none : (pick rest choice).filterMap
        (fun (slot, value) => if slot == .arg then some value else none) = [] := by
      rw [List.filterMap_eq_nil_iff]
      intro entry member
      obtain ⟨values, listed, _⟩ := mem_pick within member
      have other := others _ listed
      simp only at other
      simp [other]
    simp only [List.map_nil, List.nil_append, none]
    exact .nil
  | cons param params ih =>
    cases within with
    | cons inside later =>
      rename_i place places
      have offered : (pool param.2 constants).getD place 0 ∈ pool param.2 constants := by
        rw [← List.getElem_eq_getD (h := inside) 0]
        exact List.getElem_mem inside
      exact .cons (pool_le (sized param List.mem_cons_self) offered)
        (ih (fun other member => sized other (List.mem_cons_of_mem _ member)) later)

theorem pools_others (contract : Contract) (function : Function) :
    ∃ rest, pools contract function =
        function.params.map
          (fun param => (InputSlot.arg, pool param.2 (constants contract function))) ++ rest ∧
      (∀ entry ∈ rest, entry.1 ≠ .arg) ∧
      (function.kind = .init → ∀ entry ∈ rest, ∃ var, entry.1 = .env var) := by
  refine ⟨_, by rw [pools, List.append_assoc], ?_, ?_⟩
  · intro entry member
    rcases List.mem_append.mp member with provided | stored
    · obtain ⟨var, _, rfl⟩ := List.mem_map.mp provided
      simp
    · split at stored
      · simp at stored
      · obtain ⟨field, _, rfl⟩ := List.mem_map.mp stored
        split <;> simp
  · intro deployed entry member
    rcases List.mem_append.mp member with provided | stored
    · obtain ⟨var, _, rfl⟩ := List.mem_map.mp provided
      exact ⟨var, rfl⟩
    · simp [deployed] at stored

/-! What the search finds. -/

theorem boundValue?_of_limits_le {limits greater : RunLimits} {env : Environment}
    {storage : Storage} {bound : Bound} {limit : Nat}
    (found : boundValue? contract limits env storage bound = some limit)
    (fuel : limits.fuel ≤ greater.fuel) (depth : limits.callDepth ≤ greater.callDepth) :
    boundValue? contract greater env storage bound = some limit := by
  cases bound with
  | field name => exact found
  | function name =>
    simp only [boundValue?] at found ⊢
    cases ran : contract.run limits name { args := [], env, storage, callsSucceed := true } with
    | error problem => simp [ran] at found
    | ok report =>
      rw [Contract.run_of_limits_le ran fuel depth]
      simpa only [ran] using found

theorem startsWithin_of_limits_le {limits greater : RunLimits} {rule : Rule} {inputs : Inputs}
    (begun : startsWithin contract limits function rule inputs = true)
    (fuel : limits.fuel ≤ greater.fuel) (depth : limits.callDepth ≤ greater.callDepth) :
    inputs.StartsWithin contract greater function rule := by
  cases rule with
  | boundedBy field bound =>
    intro running
    simp only [startsWithin, Bool.or_eq_true, beq_iff_eq, running, false_or] at begun
    cases found : boundValue? contract limits inputs.env inputs.storage bound with
    | none => simp [found] at begun
    | some limit =>
      rw [found] at begun
      exact ⟨limit, boundValue?_of_limits_le found fuel depth, by simpa using begun⟩
  | noUnderflow field => trivial
  | ownerOnly field owner => trivial

theorem breaks_of_limits_le {limits greater : RunLimits} {rule : Rule} {inputs : Inputs}
    {report : Report} (broken : breaks contract limits rule inputs report = true)
    (fuel : limits.fuel ≤ greater.fuel) (depth : limits.callDepth ≤ greater.callDepth) :
    report.Breaks contract greater inputs rule := by
  cases rule with
  | boundedBy field bound =>
    simp only [breaks] at broken
    cases found : boundValue? contract limits inputs.env report.storage bound with
    | none => simp [found] at broken
    | some limit =>
      rw [found] at broken
      exact ⟨limit, boundValue?_of_limits_le found fuel depth, by simpa using broken⟩
  | noUnderflow field => simpa [breaks, Report.Breaks] using broken
  | ownerOnly field owner => simpa [breaks, Report.Breaks] using broken

/-- What the search finds is a counterexample, for a function that the rule speaks about. -/
theorem genuine_of_search? {limits : VerifierLimits} {rule : Rule}
    {counterexample : Counterexample} (formed : contract.WellFormed)
    (declared : function ∈ contract.functions) (entry : function.isEntryPoint = true)
    (allowed : ∀ field owner, rule = .ownerOnly field owner → function.kind ≠ .init)
    (found : search? contract limits function rule = some counterexample) :
    counterexample.Genuine contract limits rule function := by
  obtain ⟨attempt, _, broken⟩ := List.exists_of_findSome?_eq_some found
  have within := within_choose (pools_positive contract function) attempt
  have admitted : ∀ chosen ∈ pick (pools contract function)
      (choose attempt (poolSizes (pools contract function))),
      chosen.1.Admits contract chosen.2 := by
    intro chosen member
    obtain ⟨values, listed, inside⟩ := mem_pick within member
    exact pools_admit formed listed inside
  obtain ⟨rest, split, others, provided⟩ := pools_others contract function
  have args : function.Accepts (inputs (pick (pools contract function)
      (choose attempt (poolSizes (pools contract function))))).args := by
    rw [split] at within ⊢
    exact pick_args (formed.paramTypes function declared) others within
  unfold violation? at broken
  change (if startsWithin contract _ function rule (inputs (pick (pools contract function)
    (choose attempt (poolSizes (pools contract function))))) = true then _ else _) = _ at broken
  split at broken
  · rename_i begun
    split at broken
    · rename_i report ran
      split at broken
      · rename_i verdict
        rw [Bool.and_eq_true] at verdict
        simp only [Option.some.injEq] at broken
        subst broken
        exact {
          found := formed.function? declared
          entry
          notInit := allowed
          args
          env := inputs_env_fits admitted
          storage := inputs_storage_admits admitted
          deployed := by
            intro deployed
            refine inputs_storage_nil ?_
            intro chosen member
            obtain ⟨values, listed, _⟩ := mem_pick within member
            rw [split] at listed
            rcases List.mem_append.mp listed with argument | other
            · obtain ⟨param, _, same⟩ := List.mem_map.mp argument
              exact .inl (Prod.mk.inj same).1.symm
            · exact .inr (provided deployed _ other)
          start := fun greater fuel depth => startsWithin_of_limits_le begun fuel depth
          broken := fun greater fuel depth =>
            ⟨report, Contract.run_of_limits_le ran fuel depth, verdict.1, rfl,
              breaks_of_limits_le verdict.2 fuel depth⟩ }
      · simp at broken
    · simp at broken
  · simp at broken

end Witness

theorem Explorer.search_of_examine {explorer : Explorer} {rule : Rule} {functions : List Function}
    {earlier : Option Doubt} {counterexample : Counterexample}
    (examined : explorer.examine rule functions earlier = .ok (.violated counterexample)) :
    ∃ function ∈ functions,
      Witness.search? explorer.contract explorer.limits function rule = some counterexample := by
  induction functions generalizing earlier with
  | nil => cases earlier <;> simp [examine] at examined
  | cons function rest ih =>
    simp only [examine] at examined
    split at examined
    · simp at examined
    · obtain ⟨other, listed, found⟩ := ih examined
      exact ⟨other, List.mem_cons_of_mem _ listed, found⟩
    · split at examined
      · rename_i other found
        simp only [Except.ok.injEq, Verdict.violated.injEq] at examined
        exact ⟨function, List.mem_cons_self, by rw [found, examined]⟩
      · obtain ⟨other, listed, found⟩ := ih examined
        exact ⟨other, List.mem_cons_of_mem _ listed, found⟩

theorem Property.mem_relevantFunctions {contract : Contract} {summaries : Summaries} {rule : Rule}
    {function : Function} (relevant : function ∈ relevantFunctions contract summaries rule) :
    function ∈ contract.functions ∧ function.isEntryPoint = true ∧
      ∀ field owner, rule = .ownerOnly field owner → function.kind ≠ .init := by
  simp only [relevantFunctions, List.mem_filter, Bool.and_eq_true, Contract.entryPoints] at relevant
  obtain ⟨⟨declared, entry⟩, kind, _⟩ := relevant
  refine ⟨declared, entry, ?_⟩
  rintro field owner rfl deployed
  simp [deployed] at kind

namespace ContractSet

theorem check_of_mem_verify {set : ContractSet} {limits : VerifierLimits}
    {properties : List Property} {results : List Verification} {property : Property}
    {verdict : Verdict} (answered : set.verify limits properties = .ok results)
    (reported : ⟨property, verdict⟩ ∈ results) (known : ∀ doubt, verdict ≠ .unknown doubt) :
    property ∈ properties ∧ set.check (Summaries.ofSet set).1 limits property = .ok verdict := by
  obtain ⟨place, there⟩ := List.mem_iff_getElem?.mp reported
  obtain ⟨_, listed, checked⟩ := check_of_verify answered there known
  exact ⟨List.mem_of_getElem? listed, checked⟩

theorem examine_of_check {set : ContractSet} {summaries : Summaries} {limits : VerifierLimits}
    {property : Property} {verdict : Verdict}
    (checked : set.check summaries limits property = .ok verdict)
    (known : ∀ doubt, verdict ≠ .unknown doubt) :
    ∃ contract, set.contract? property.contract = some contract ∧
      Property.validate contract summaries property.rule = .ok () ∧
      Explorer.examine ⟨contract, summaries, limits⟩ property.rule
        (Property.relevantFunctions contract summaries property.rule) none = .ok verdict := by
  unfold check at checked
  split at checked
  · exact absurd (Except.ok.inj checked).symm (known _)
  · rename_i contract found
    split at checked
    · exact absurd (Except.ok.inj checked).symm (known _)
    · rename_i valid
      exact ⟨contract, found, valid, checked⟩

/-- Every counterexample that is reported is genuine. Every attempt takes from each pool a value
that the pool offers: the first attempt the first values, the next ones another value in one place,
until all of these have been tried. -/
theorem genuine_of_violated (text : String) (limits : VerifierLimits) (properties : List Property) :
    (∀ results property counterexample, (ofText text).verify limits properties = .ok results →
      ⟨property, .violated counterexample⟩ ∈ results →
      ∃ contract function, (ofText text).contract? property.contract = some contract ∧
        counterexample.Genuine contract limits property.rule function) ∧
    ∀ contract function attempt,
      let sizes := Witness.poolSizes (Witness.pools contract function)
      Witness.Within sizes (Witness.choose attempt sizes) ∧
      (attempt = 0 → ∀ place ∈ Witness.choose attempt sizes, place = 0) ∧
      (0 < attempt → attempt ≤ Witness.variations sizes →
        Witness.DiffersOnce sizes (Witness.choose attempt sizes)) ∧
      ∀ choice, Witness.DiffersOnce sizes choice →
        ∃ earlier, 0 < earlier ∧ earlier ≤ Witness.variations sizes ∧ Witness.choose earlier sizes =
          choice := by
  constructor
  · intro results property counterexample answered reported
    obtain ⟨_, checked⟩ := check_of_mem_verify answered reported (by simp)
    obtain ⟨contract, found, _, examined⟩ := examine_of_check checked (by simp)
    obtain ⟨function, relevant, searched⟩ := Explorer.search_of_examine examined
    obtain ⟨declared, entry, allowed⟩ := Property.mem_relevantFunctions relevant
    have formed := wellFormed_of_ofText (mem_of_contract? found).1
    exact ⟨contract, function, found,
      Witness.genuine_of_search? formed declared entry allowed searched⟩
  · intro contract function attempt sizes
    refine ⟨Witness.within_choose (Witness.pools_positive contract function) attempt, ?_, ?_, ?_⟩
    · rintro rfl place member
      simp only [Witness.choose, if_true, List.mem_map] at member
      obtain ⟨_, _, rfl⟩ := member
      rfl
    · intro later few
      have positive : attempt ≠ 0 := by omega
      simp only [Witness.choose, positive, if_false, few, if_true]
      exact Witness.vary_differsOnce (by omega)
    · intro choice differs
      obtain ⟨rest, few, same⟩ := Witness.exists_vary differs
      refine ⟨rest + 1, by omega, by omega, ?_⟩
      have fits : rest + 1 ≤ Witness.variations sizes := by omega
      simp only [Witness.choose, Nat.add_one_ne_zero, if_false, fits, if_true, Nat.add_sub_cancel]
      exact same

/-- A counter that anyone may take from can go below zero, as is found even if no path of it may be
followed. -/
theorem genuine_of_unguarded_subtraction :
    let set := ofText "contract A \x7b\n  x: u8\n  down(n: u8) \x7b self.x = self.x - n \x7d\n\x7d"
    let limits : VerifierLimits := { VerifierLimits.standard with maxPaths := 0 }
    let property : Property := ⟨"A", .noUnderflow "x"⟩
    ∃ counterexample, set.verify limits [property] = .ok [⟨property, .violated counterexample⟩] ∧
      ∃ contract function, set.contract? "A" = some contract ∧
        counterexample.Genuine contract limits (.noUnderflow "x") function := by
  intro set limits property
  let inputs : Inputs :=
    { args := [1], env := ⟨0xa11ce, 0, 0, 1, 0xa11ce⟩, storage :=
      [(⟨"x", none⟩, 0)], callsSucceed := true }
  let counterexample : Counterexample :=
    { function := "down"
      inputs
      trace := [⟨"down", 0, ⟨3, 17⟩, .setStorage ⟨"x", none⟩ 255⟩, ⟨"down", 0, ⟨3, 37⟩, .ret none⟩]
        }
  have answered : set.verify limits [property] = .ok [⟨property, .violated counterexample⟩] := by
    decide +kernel
  have genuine :=
    (genuine_of_violated _ _ _).1 _ property counterexample answered List.mem_cons_self
  exact ⟨counterexample, answered, genuine⟩

end ContractSet

end Covenant
