import Covenant.Proofs.Run.Altered
import Covenant.Proofs.Run.Lockstep
import Covenant.Proofs.Run.Posts
import Covenant.Proofs.Scan.Fates
import Covenant.Scan.Scanner

/-!
Stores that nothing sees. Whichever way code goes from a store that is found to be dead, it comes to
another store to the same field before anything looks at it, or it reverts: so no value that is
written there can be told from another.
-/

namespace Covenant

namespace Finding

structure Hides (function : Function) (field : String) (block : BasicBlock)
    (pending : List (Located Instruction)) :
    Prop where
  unseen : fateIn field pending ≠ .observed
  unreturned : fateIn field pending = .kept → ∀ value, block.terminator.node ≠ .ret value
  successors : fateIn field pending = .kept → ∀ next ∈ block.terminator.node.successors,
    Unseen function field ⟨next, 0⟩

variable {function : Function} {field : String}

theorem Unseen.hides {place : Position} (unseen : Unseen function field place) {block : BasicBlock}
    (there : function.block? place.block = some block) :
    Hides function field block (block.instructions.drop place.index) where
  unseen := fun observed => unseen place .refl ⟨block, there, .inl observed⟩
  unreturned := fun kept value node => unseen place .refl ⟨block, there, .inr ⟨kept, value, node⟩⟩
  successors := fun kept next leads later keepsTo =>
    unseen later (.head ⟨block, there, kept, next, leads, rfl⟩ keepsTo)

/-- Code at which a field is not seen writes it next, or goes on to code at which it is not seen,
and does neither load it nor leave the function. -/
theorem Hides.cases {block : BasicBlock} {instruction : Located Instruction}
    {rest : List (Located Instruction)} (hides : Hides function field block (instruction :: rest)) :
    (∃ value, instruction.node = .storeField field none value) ∨
      Hides function field block rest ∧ (∀ value, instruction.node ≠ .storeField field none value) ∧
        (∀ dest read key, instruction.node = .loadField dest read key → read ≠ field) ∧
        ∀ dest name args, instruction.node ≠ .call dest name args := by
  obtain ⟨node, location⟩ := instruction
  have passes (same : fateIn field (⟨node, location⟩ :: rest) = fateIn field rest) :
      Hides function field block rest := by
    obtain ⟨unseen, unreturned, successors⟩ := hides
    rw [same] at unseen unreturned successors
    exact ⟨unseen, unreturned, successors⟩
  have unseen := hides.unseen
  cases node with
  | loadField dest read key =>
    by_cases same : read = field
    · simp [fateIn, same] at unseen
    · refine .inr ⟨passes (by simp [fateIn, same]), nofun, fun _ _ _ loads => ?_, nofun⟩
      obtain ⟨_, rfl, _⟩ := Instruction.loadField.inj loads
      exact same
  | storeField written key value =>
    by_cases same : written = field ∧ key = none
    · exact .inl ⟨value, by rw [same.1, same.2]⟩
    · refine .inr ⟨passes ?_, fun _ stores => ?_, nofun, nofun⟩
      · cases key with
        | none => simp [fateIn, show written ≠ field from fun equal => same ⟨equal, rfl⟩]
        | some id => rfl
      · obtain ⟨rfl, rfl, _⟩ := Instruction.storeField.inj stores
        exact same ⟨rfl, rfl⟩
  | call dest name args => simp [fateIn] at unseen
  | externalCall dest kind target amount => simp [fateIn] at unseen
  | _ => exact .inr ⟨passes rfl, nofun, nofun, nofun⟩

end Finding

structure Alteration.Dead (change : Alteration) (field : String) : Prop where
  store : ∀ block, change.function.block? change.position.block = some block →
    ∃ value location, block.instructions[change.position.index]? =
      some ⟨.storeField field none value, location⟩
  behind : Finding.Unseen change.function field ⟨change.position.block, change.position.index + 1⟩

namespace Alteration

variable {change : Alteration} {field : String} {declared : Declarations} {result : Option Ty}

theorem Dead.of_hits (dead : change.Dead field) {contract : Contract} {types : List Ty}
    {frame : Frame} (typed : frame.Typed False contract declared types none)
    (hit : change.hits frame = true) {instruction : Located Instruction}
    {rest : List (Located Instruction)} (pending : frame.pending = instruction :: rest) :
    frame.function = change.function ∧
      (∃ value, instruction.node = .storeField field none value) ∧
      Finding.Hides change.function field frame.block rest := by
  simp only [hits, Bool.and_eq_true, beq_iff_eq] at hit
  obtain ⟨⟨function, id⟩, left⟩ := hit
  obtain ⟨done, split, _⟩ := typed.place
  have count : done.length = change.position.index := by
    rw [split, List.length_append] at left
    omega
  have there : change.function.block? change.position.block = some frame.block := by
    rw [← function, ← id]
    exact typed.block
  refine ⟨function, ?_, ?_⟩
  · obtain ⟨value, location, found⟩ := dead.store _ there
    rw [split, pending, ← count, List.getElem?_append_right (Nat.le_refl _), Nat.sub_self] at found
    exact ⟨value, congrArg Located.node (Option.some.inj found)⟩
  · have hides := dead.behind.hides there
    have rest_eq : frame.block.instructions.drop (change.position.index + 1) = rest := by
      rw [split, pending, ← count, ← List.drop_drop, List.drop_left, List.drop_one, List.tail_cons]
    rwa [rest_eq] at hides

/-- Whether a run and the one with another value are in the same state, or in states that are the
same but for the field, which is not seen from there on in the function with the store. -/
inductive Follows (change : Alteration) (field : String) : Running → Running → Prop
  | same {frame callers} {left right : Effects} : left.Shares Eq right →
      Follows change field ⟨frame, callers, left⟩ ⟨frame, callers, right⟩
  | apart {frame callers} {left right : Effects} : left.Shares (Storage.Apart ⟨field, none⟩) right →
      frame.function = change.function →
      Finding.Hides change.function field frame.block frame.pending →
      Follows change field ⟨frame, callers, left⟩ ⟨frame, callers, right⟩

variable {setting : Setting} {state other : Running}

theorem agree_of_same {first second : Except ExecutionError Step}
    (parallel : Running.Parallel Eq first second) :
    Running.Agree (change.Follows field) (Effects.Shares Eq) first second :=
  parallel.imp (fun _ _ _ beside => by cases beside with | intro _ _ shares => exact .same shares)
    fun _ _ _ _ shares => shares

theorem agree_of_apart {first second : Except ExecutionError Step}
    (parallel : Running.Parallel (Storage.Apart ⟨field, none⟩) first second)
    (hidden : ∀ next, first = .ok (.running next) → next.frame.function = change.function ∧
      Finding.Hides change.function field next.frame.block next.frame.pending)
    (goesOn : ∀ value effects, first ≠ .ok (.ended (.returned value) effects)) :
    Running.Agree (change.Follows field) (Effects.Shares Eq) first second := by
  refine parallel.imp (fun state other went beside => ?_) fun value left _ returned _ =>
    absurd returned (goesOn value left)
  obtain ⟨function, hides⟩ := hidden state went
  cases beside with
  | intro frame callers shares => exact .apart shares function hides

section Steps

variable {frame : Frame} {callers : List Caller} {left right : Effects}

/-- Running the store leaves the storages apart in the field at most, at a place from which it is
not seen. -/
theorem Dead.agree_of_hits (dead : change.Dead field)
    (typed : Running.Typed False setting.contract declared result ⟨frame, callers, left⟩)
    (hit : change.hits frame = true) {related : Storage → Storage → Prop}
    (shares : left.Shares related right)
    (puts : ∀ value other, Storage.Apart ⟨field, none⟩
      (Storage.put ⟨field, none⟩ value left.storage)
      (Storage.put ⟨field, none⟩ other right.storage))
    {instruction : Located Instruction} {rest : List (Located Instruction)}
    (pending : frame.pending = instruction :: rest) :
    Running.Agree (change.Follows field) (Effects.Shares Eq)
      (Running.step setting ⟨frame, callers, left⟩)
      (Running.stepAltered change setting ⟨frame, callers, right⟩) := by
  obtain ⟨types, standing⟩ := typed.frame
  obtain ⟨function, ⟨value, same⟩, hides⟩ := dead.of_hits standing hit pending
  obtain ⟨node, location⟩ := instruction
  obtain rfl : node = .storeField field none value := same
  have parallel : Running.Parallel (Storage.Apart ⟨field, none⟩)
      (Running.step setting ⟨frame, callers, left⟩)
      (Running.stepAltered change setting ⟨frame, callers, right⟩) := by
    rw [Running.stepAltered_of_hits pending hit, Running.step_of_store pending]
    refine Running.parallel_storing shares fun place number found => ?_
    obtain rfl := Except.ok.inj found
    exact puts _ _
  refine agree_of_apart parallel (fun next went => ?_) fun value effects returned => ?_
  · obtain ⟨same, block, left⟩ := Running.place_of_step went pending nofun
    exact ⟨same.trans function, block ▸ left ▸ hides⟩
  · exact absurd (pending.symm.trans (Running.step_returned returned).pending)
      (List.cons_ne_nil _ _)

/-- From states that are the same, a step leads to such states unless it runs the store, which may
part them. -/
theorem Dead.agree_same (dead : change.Dead field)
    (typed : Running.Typed False setting.contract declared result ⟨frame, callers, left⟩)
    (shares : left.Shares Eq right) :
    Running.Agree (change.Follows field) (Effects.Shares Eq)
      (Running.step setting ⟨frame, callers, left⟩)
      (Running.stepAltered change setting ⟨frame, callers, right⟩) := by
  cases pending : frame.pending with
  | nil =>
    rw [Running.stepAltered_of_nil pending, Running.step_of_nil pending,
      Running.step_of_nil pending]
    exact agree_of_same (Running.parallel_terminator shares _)
  | cons instruction rest =>
    by_cases hit : change.hits frame = true
    · refine dead.agree_of_hits typed hit shares (fun value other => ?_) pending
      exact shares.storage ▸ Storage.apart_put _ value other _
    · rw [Running.stepAltered_of_not_hits (by simpa using hit)]
      refine agree_of_same ?_
      obtain ⟨node, location⟩ := instruction
      by_cases stores : ∃ written key value, node = .storeField written key value
      · obtain ⟨written, key, value, rfl⟩ := stores
        rw [Running.step_of_store pending, Running.step_of_store pending]
        exact Running.parallel_storing shares fun place number _ => congrArg _ shares.storage
      · push Not at stores
        rw [Running.step_of_cons pending, Running.step_of_cons pending]
        exact Running.parallel_instruction shares stores fun _ _ _ place _ _ => by
          rw [shares.storage]

theorem agree_apart_of_nil (shares : left.Shares (Storage.Apart ⟨field, none⟩) right)
    (function : frame.function = change.function)
    (hides : Finding.Hides change.function field frame.block []) (pending : frame.pending = []) :
    Running.Agree (change.Follows field) (Effects.Shares Eq)
      (Running.step setting ⟨frame, callers, left⟩)
      (Running.step setting ⟨frame, callers, right⟩) := by
  have parallel : Running.Parallel (Storage.Apart ⟨field, none⟩)
      (Running.step setting ⟨frame, callers, left⟩)
      (Running.step setting ⟨frame, callers, right⟩) := by
    rw [Running.step_of_nil pending, Running.step_of_nil pending]
    exact Running.parallel_terminator shares _
  refine agree_of_apart parallel (fun next went => ?_) fun value effects returned => ?_
  · obtain ⟨target, leads, block, found, entered⟩ :=
      Running.place_of_step_nil went pending (hides.unreturned rfl)
    have there : change.function.block? target = some block := function ▸ found
    rw [entered]
    exact ⟨function, (hides.successors rfl target leads).hides there⟩
  · have yields := (Running.step_returned returned).yields
    have stays := hides.unreturned rfl
    dsimp only at yields
    generalize frame.block.terminator.node = node at yields stays
    cases yields <;> exact absurd rfl (stays _)

theorem of_plain_place {written : String} {key : Option ValueId}
    (found : frame.place written key = .ok ⟨field, none⟩) : written = field ∧ key = none := by
  have same := Frame.place_eq found
  simp only [StorageKey.mk.injEq] at same
  exact ⟨same.1.symm, Option.map_eq_none_iff.mp same.2.symm⟩

theorem parallel_apart {node : Instruction} {location : Location}
    {rest : List (Located Instruction)} (shares : left.Shares (Storage.Apart ⟨field, none⟩) right)
    (pending : frame.pending = ⟨node, location⟩ :: rest)
    (unwritten : ∀ value, node ≠ .storeField field none value)
    (unread : ∀ dest read key, node = .loadField dest read key → read ≠ field) :
    Running.Parallel (Storage.Apart ⟨field, none⟩) (Running.step setting ⟨frame, callers, left⟩)
      (Running.step setting ⟨frame, callers, right⟩) := by
  by_cases stores : ∃ written key value, node = .storeField written key value
  · obtain ⟨written, key, value, rfl⟩ := stores
    rw [Running.step_of_store pending, Running.step_of_store pending]
    refine Running.parallel_storing shares fun place number found => shares.storage.put_other ?_ _
    rintro rfl
    obtain ⟨rfl, rfl⟩ := of_plain_place found
    exact unwritten value rfl
  · push Not at stores
    rw [Running.step_of_cons pending, Running.step_of_cons pending]
    refine Running.parallel_instruction shares stores fun dest read key place loads found => ?_
    refine (shares.storage.get_other ?_).symm
    rintro rfl
    exact unread dest read key loads (of_plain_place found).1

/-- From states that differ in the field, a step leads on to places from which it is not seen,
unless it writes the field, which makes the states the same, or runs the store once more. -/
theorem Dead.agree_apart (dead : change.Dead field)
    (typed : Running.Typed False setting.contract declared result ⟨frame, callers, left⟩)
    (shares : left.Shares (Storage.Apart ⟨field, none⟩) right)
    (function : frame.function = change.function)
    (hides : Finding.Hides change.function field frame.block frame.pending) :
    Running.Agree (change.Follows field) (Effects.Shares Eq)
      (Running.step setting ⟨frame, callers, left⟩)
      (Running.stepAltered change setting ⟨frame, callers, right⟩) := by
  cases pending : frame.pending with
  | nil =>
    rw [Running.stepAltered_of_nil pending]
    exact agree_apart_of_nil shares function (pending ▸ hides) pending
  | cons instruction rest =>
    by_cases hit : change.hits frame = true
    · refine dead.agree_of_hits typed hit shares (fun value other => ?_) pending
      exact shares.storage.put_same other ▸ Storage.apart_put _ value other _
    · rw [Running.stepAltered_of_not_hits (by simpa using hit)]
      obtain ⟨node, location⟩ := instruction
      rcases (pending ▸ hides).cases with ⟨value, rfl⟩ | ⟨later, unwritten, unread, stays⟩
      · rw [Running.step_of_store pending, Running.step_of_store pending]
        refine agree_of_same (Running.parallel_storing shares fun place number found => ?_)
        obtain rfl := Except.ok.inj found
        exact shares.storage.put_same _
      · -- no call leaves the function here, so that the field stays hidden in the rest of the block
        refine agree_of_apart (parallel_apart shares pending unwritten unread) (fun next went => ?_)
          fun value effects returned => ?_
        · obtain ⟨same, block, left⟩ := Running.place_of_step went pending stays
          exact ⟨same.trans function, block ▸ left ▸ later⟩
        · exact absurd (pending.symm.trans (Running.step_returned returned).pending)
            (List.cons_ne_nil _ _)

end Steps

variable {setting : Setting} {state other : Running}

/-- Runs from states that follow each other fail alike or leave the same behind. -/
theorem Follows.run (follows : change.Follows field state other) (dead : change.Dead field)
    (code : setting.contract.Typed declared)
    (typed : state.Typed False setting.contract declared result) (initial : Storage)
    (budget fuel : Nat) :
    ((Running.runAltered change setting budget fuel other).map fun ended =>
      Contract.report initial ended.1 ended.2).map
        Report.outcome =
      ((Running.run setting budget fuel state).map fun ended =>
        Contract.report initial ended.1 ended.2).map
        Report.outcome := by
  induction fuel generalizing state other with
  | zero => rfl
  | succ fuel ih =>
    -- the storages part where the store runs, and come together again before anything tells them
    -- apart
    have agree : Running.Agree (change.Follows field) (Effects.Shares Eq) (state.step setting)
        (other.stepAltered change setting) := by
      cases follows with
      | same shares => exact dead.agree_same typed shares
      | apart shares function hides => exact dead.agree_apart typed shares function hides
    have keeps := Running.step_keeps code False.elim typed
    simp only [Running.run, Running.runAltered]
    generalize state.step setting = first at agree keeps
    generalize other.stepAltered change setting = second at agree
    cases agree with
    | error problem => rfl
    | running follows =>
      cases keeps with
      | running typed => exact ih follows typed
    | returned value shares =>
      simp only [Except.map, Contract.report, Report.outcome, shares.storage, shares.events,
        shares.calls]
    | reverted message left right => rfl

end Alteration

theorem Finding.dead_of_mem_deadStores {function : Function} {declared : Declarations}
    {types : List Ty} (typed : function.Typed declared types) {position : Position}
    {field : String} {location : Location}
    (reported : (position, field, location) ∈ deadStores function) (value : Running → Nat) :
    Alteration.Dead ⟨function, position, value⟩ field := by
  obtain ⟨plain, dead⟩ := List.mem_filter.mp reported
  obtain ⟨⟨id, index, node, placed⟩, reached, same⟩ := List.mem_filterMap.mp plain
  obtain ⟨block, member, inside⟩ := List.mem_flatMap.mp reached
  obtain ⟨⟨instruction, order⟩, numbered, entry⟩ := List.mem_map.mp inside
  simp only [Prod.mk.injEq] at entry
  obtain ⟨rfl, rfl, rfl⟩ := entry
  refine ⟨fun other there => ?_, (isDead_iff.mp dead).1⟩
  obtain ⟨number, found⟩ := List.mem_iff_getElem?.mp (List.mem_filter.mp member).1
  obtain rfl := typed.ids number block found
  dsimp only at same
  split at same
  · rename_i written stored
    simp only [Option.some.injEq, Prod.mk.injEq] at same
    obtain ⟨rfl, rfl, rfl⟩ := same
    obtain rfl := Option.some.inj (found.symm.trans there)
    exact ⟨stored, _, List.mem_zipIdx_iff_getElem?.mp numbered⟩
  · simp at same

namespace ContractSet

/-- Whatever value a store that is found to be dead writes each time that it runs, a call of a
function comes to the same: it fails alike or ends alike, with the same storage, events and calls
out of the contract. -/
theorem outcome_of_dead_store {text : String} {home : Contract} {function : Function}
    (listed : (home, function) ∈ (ofText text).functions) {position : Finding.Position}
    {field : String} {location : Location}
    (reported : (position, field, location) ∈ Finding.deadStores function) {contract : Contract}
    (member : contract ∈ (ofText text).contracts) (limits : RunLimits) (name : String)
    (inputs : Inputs) (value : Running → Nat) :
    (contract.runAltered ⟨function, position, value⟩ limits name inputs).map Report.outcome =
      (contract.run limits name inputs).map Report.outcome := by
  obtain ⟨_, declaredHere, inside⟩ := List.mem_flatMap.mp listed
  obtain ⟨_, there, same⟩ := List.mem_map.mp inside
  obtain ⟨rfl, rfl⟩ := Prod.mk.inj same
  obtain ⟨_, homeCode⟩ := typed_of_ofText declaredHere
  obtain ⟨_, homeTyped⟩ := homeCode.functions _ there
  have dead := Finding.dead_of_mem_deadStores homeTyped reported value
  obtain ⟨declared, code⟩ := typed_of_ofText member
  cases found : contract.function? name with
  | none => simp only [Contract.runAltered, Contract.run, found]
  | some called =>
    by_cases count : called.params.length = inputs.args.length
    · rw [Contract.runAltered_eq_bind found count, Contract.run_eq_bind found count]
      cases framed : called.frame (called.entryCells inputs.args) with
      | error problem => rfl
      | ok frame =>
        have typed : Running.Typed False (inputs.setting contract limits).contract declared
          called.returns
            ⟨frame, [], Effects.start inputs.storage⟩ :=
          code.of_frame found count framed inputs.storage
        exact Alteration.Follows.run (.same (.refl _)) dead code typed inputs.storage
          limits.fuel limits.fuel
    · simp [Contract.runAltered, Contract.run, found, count]

/-- A loop stores its counter, which the next round or the store behind the loop overwrites: with
another value there, the same is left behind, though other writes were made. -/
theorem outcome_of_dead_store_of_loop :
    let text :=
      "contract A \x7b x: u64 f(n: u64) \x7b let i: u64 = 0 while i < n \x7b self.x = i i = i + 1 \x7d " ++
        "self.x = n \x7d \x7d"
    let inputs := { Inputs.empty with args := [2] }
    ∃ contract function, (contract, function) ∈ (ofText text).functions ∧
      ∃ position location, (position, "x", location) ∈ Finding.deadStores function ∧
        ∃ report other, contract.run .standard function.name inputs = .ok report ∧
          contract.runAltered ⟨function, position, fun _ => 7⟩ .standard function.name inputs =
            .ok other ∧
          report.stores.map StoreRecord.value = [0, 1, 2] ∧
          other.stores.map StoreRecord.value = [7, 7, 2] ∧
          other.outcome = report.outcome := by
  intro text inputs
  have facts : ∃ contract ∈ (ofText text).contracts, ∃ function ∈ contract.functions,
      ∃ reported ∈ Finding.deadStores function, reported.2.1 = "x" ∧
        ∃ report ∈ (contract.run .standard function.name inputs).toOption,
          ∃ other ∈ (contract.runAltered ⟨function, reported.1, fun _ => 7⟩ .standard function.name
            inputs).toOption,
            report.stores.map StoreRecord.value = [0, 1, 2] ∧ other.stores.map StoreRecord.value =
              [7, 7, 2] := by
    decide +kernel
  obtain ⟨contract, member, function, there, ⟨position, field, location⟩, reported, rfl, report,
    ran, other, altered, stored, instead⟩ := facts
  have listed : (contract, function) ∈ (ofText text).functions :=
    List.mem_flatMap.mpr ⟨contract, member, List.mem_map.mpr ⟨function, there, rfl⟩⟩
  have left := Running.toOption_eq_some.mp ran
  have right := Running.toOption_eq_some.mp altered
  have same := outcome_of_dead_store listed reported member .standard function.name inputs fun _ =>
    7
  rw [left, right] at same
  exact ⟨contract, function, listed, position, location, reported, report, other, left, right,
    stored, instead, Except.ok.inj same⟩

end ContractSet

end Covenant
