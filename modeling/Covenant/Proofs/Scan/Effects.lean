import Covenant.Proofs.Run.Lockstep
import Covenant.Proofs.Run.ReadOnly
import Covenant.Proofs.Scan.Summaries
import Covenant.Symbolic.Explorer

/-!
The summaries of functions are exact: the effects of a function are those of all functions that it
comes to through calls, and of no others. A run of the function does nothing else either, since each
function that is running was called by the one that waits for it.
-/

namespace Covenant

section

def Contract.Invokes (contract : Contract) (caller callee : Function) : Prop :=
  callee ∈ contract.functions ∧ callee.name ∈ caller.callees

/-- Whether a function is another one, or is called by it through any number of others. -/
abbrev Contract.ComesTo (contract : Contract) (caller callee : Function) : Prop :=
  Relation.ReflTransGen contract.Invokes caller callee

variable {contract : Contract} {has : Effect → Bool}

namespace Summary

def Founded (contract : Contract) (has : Effect → Bool) (table : EffectTable) : Prop :=
  ∀ name callees effect, table.lookup name = some (callees, effect) → ∃ function,
    function ∈ contract.functions ∧
    function.name = name ∧ callees = function.callees ∧
    (has effect = true → ∃ other, contract.ComesTo function other ∧ has other.localEffect = true)

variable {table : EffectTable}

theorem founded_locally (contract : Contract) (has : Effect → Bool) :
    Founded contract has (locally contract) := by
  intro name callees effect found
  obtain ⟨function, member, same⟩ := List.mem_map.mp (mem_of_lookup found)
  simp only [Prod.mk.injEq] at same
  obtain ⟨rfl, rfl, rfl⟩ := same
  exact ⟨function, member, rfl, rfl, fun holds => ⟨function, .refl, holds⟩⟩

theorem Founded.spread (founded : Founded contract has table) (additive : Effect.Additive has) :
    Founded contract has (spread table) := by
  intro name callees effect found
  rw [lookup_spread] at found
  obtain ⟨⟨calls, before⟩, there, same⟩ := Option.map_eq_some_iff.mp found
  simp only [Prod.mk.injEq] at same
  obtain ⟨rfl, rfl⟩ := same
  obtain ⟨function, member, named, same, own⟩ := founded name calls before there
  refine ⟨function, member, named, same, fun holds => ?_⟩
  rcases (has_spreadEntry additive).mp holds with already
    | ⟨callee, called, others, added, known, holds⟩
  · exact own already
  · obtain ⟨inner, listed, named, _, deeper⟩ := founded callee others added known
    obtain ⟨other, calls, holds⟩ := deeper holds
    exact ⟨other, .head ⟨listed, by rw [named, ← same]; exact called⟩ calls, holds⟩

theorem Founded.settle (founded : Founded contract has table) (additive : Effect.Additive has)
    (fuel : Nat) :
    Founded contract has (settle fuel table).1 := by
  induction fuel generalizing table with
  | zero => exact founded
  | succ fuel ih =>
    simp only [Summary.settle]
    split
    · exact founded.spread additive
    · exact ih (founded.spread additive)

end Summary

namespace Contract.Summarized

variable {summaries : Summaries}

theorem along (summarized : contract.Summarized summaries) (additive : Effect.Additive has)
    {function other : Function} (calls : contract.ComesTo function other)
    (member : function ∈ contract.functions) (holds : has other.localEffect = true)
    {summary : Summary} (found : summaries.get? contract.name function.name = some summary) :
    has summary.effect = true := by
  induction calls using Relation.ReflTransGen.head_induction_on generalizing summary with
  | refl => exact summarized.own other member summary found has additive holds
  | @head function callee called _ ih =>
    obtain ⟨inner, there⟩ := summarized.found callee called.1
    exact summarized.called function member summary found _ called.2 inner there has additive
      (ih called.1 there)

end Contract.Summarized

theorem Contract.WellFormed.has_summary_iff (formed : contract.WellFormed) {set : ContractSet}
    (known : set.contract? contract.name = some contract) {function : Function}
    (member : function ∈ contract.functions) {summary : Summary}
    (found : (Summaries.ofSet set).1.get? contract.name function.name = some summary)
    (additive : Effect.Additive has) : has summary.effect = true ↔
      ∃ other, contract.ComesTo function other ∧ has other.localEffect = true := by
  refine ⟨fun holds => ?_, fun ⟨other, calls, holds⟩ =>
    (formed.summarized known).along additive calls member holds found⟩
  have settled := (Summary.founded_locally contract has).settle additive
    (contract.functions.length + 1)
  rw [Summaries.get?_ofSet known] at found
  have listed := Summary.find?_ofContract contract function.name
  rw [found] at listed
  obtain ⟨other, there, named, _, own⟩ := settled _ _ _ listed.symm
  obtain rfl := List.inj_on_of_nodup_map formed.functionNames there member named
  exact own holds

namespace Running

variable {declared : Declarations} {result : Option Ty} {setting : Setting} {state : Running}

theorem comesTo_of_serves {post : Post} {below : List Post}
    (serves : (post :: below).IsChain Post.Serves)
    (stands : ∀ other ∈ post :: below, other.Stands contract declared) :
    contract.ComesTo ((post :: below).getLast (List.cons_ne_nil _ _)).function post.function := by
  induction below generalizing post with
  | nil => exact .refl
  | cons lower rest ih =>
    obtain ⟨served, further⟩ := List.isChain_cons_cons.mp serves
    obtain ⟨here, later⟩ := List.forall_mem_cons.mp stands
    rw [List.getLast_cons (List.cons_ne_nil _ _)]
    exact (ih further later).tail ⟨here.member, served.mem_callees (later lower List.mem_cons_self)⟩

theorem Reaches.comesTo {frame : Frame} {effects : Effects}
    (reaches : Reaches setting ⟨frame, [], effects⟩ state) (code : setting.contract.Typed declared)
    (start : Running.Typed False setting.contract declared result ⟨frame, [], effects⟩) :
    setting.contract.ComesTo frame.function state.frame.function := by
  have begun := linked_start frame effects
  have typed := reaches.typed code False.elim start
  have linked := reaches.linked code False.elim start begun
  have stands := start.stands _ (List.getLast_mem (posts_ne_nil _))
  obtain ⟨_, same⟩ := stands.along (reaches.outermost code start begun)
  have outer : state.outermost.function = frame.function := same
  exact outer ▸ comesTo_of_serves linked.serves typed.stands

end Running

namespace ContractSet

/-- Whenever the summaries are found, each function has one. It reads, writes and calls out of the
contract as the function itself and those do that it comes to through calls, however they call each
other, and in no other way. What a run of the function loads, stores and calls is in it, whether the
run succeeds or reverts. -/
theorem summaries_exact {text : String} {facts : Facts Check Summaries} {budget : Nat}
    {issues : List Issue} {summaries : Summaries}
    (ran : Check.functionSummaries.pass.run (ofText text) facts budget = .ok (issues, summaries))
    {contract : Contract} (member : contract ∈ (ofText text).contracts) {function : Function}
    (listed : function ∈ contract.functions) :
    ∃ summary, summaries.get? contract.name function.name = some summary ∧
      ((∀ field, field ∈ summary.effect.reads ↔
          ∃ other, contract.ComesTo function other ∧ field ∈ other.localEffect.reads) ∧
        (∀ field, field ∈ summary.effect.writes ↔
          ∃ other, contract.ComesTo function other ∧ field ∈ other.localEffect.writes) ∧
        (∀ field, field ∈ summary.effect.sharedWrites ↔
          ∃ other, contract.ComesTo function other ∧ field ∈ other.localEffect.sharedWrites) ∧
        (summary.effect.externalCalls = true ↔
          ∃ other, contract.ComesTo function other ∧ other.localEffect.externalCalls = true)) ∧
      ∀ limits inputs report, contract.run limits function.name inputs = .ok report →
        ∃ frame, function.frame (function.entryCells inputs.args) = .ok frame ∧
          ∀ state, Running.Reaches (inputs.setting contract limits)
            ⟨frame, [], Effects.start inputs.storage⟩ state →
            (∀ dest field key, state.Runs (.loadField dest field key) →
              field ∈ summary.effect.reads) ∧
            (∀ field key value, state.Runs (.storeField field key value) →
              field ∈ summary.effect.writes) ∧
            ∀ dest kind target amount, state.Runs (.externalCall dest kind target amount) →
              summary.effect.externalCalls = true := by
  obtain rfl : summaries = (Summaries.ofSet (ofText text)).1 :=
    congrArg Prod.snd (Check.eq_of_within ran)
  have formed := wellFormed_of_ofText member
  have known := find?_eq_some_of_nodup (ofText_names text) member
  obtain ⟨summary, found⟩ := (summarized member).found function listed
  have summed {has : Effect → Bool} (additive : Effect.Additive has) : has summary.effect = true ↔
      ∃ other, contract.ComesTo function other ∧ has other.localEffect = true :=
    formed.has_summary_iff known listed found additive
  have reads (field : String) := Effect.additive_contains Effect.reads rfl (fun _ _ => rfl) field
  have writes (field : String) := Effect.additive_contains Effect.writes rfl (fun _ _ => rfl) field
  have shared (field : String) := Effect.additive_contains Effect.sharedWrites rfl
    (fun _ _ => rfl) field
  refine ⟨summary, found,
    ⟨fun field => ?_, fun field => ?_, fun field => ?_, summed Effect.additive_externalCalls⟩,
    fun limits inputs report returned => ?_⟩
  · simpa using summed (reads field)
  · simpa using summed (writes field)
  · simpa using summed (shared field)
  · obtain ⟨declared, code⟩ := typed_of_ofText member
    obtain ⟨first, frame, _, _, found', count, framed, _, _⟩ := Contract.run_eq_ok_iff.mp returned
    obtain rfl : first = function := Option.some.inj (found'.symm.trans (formed.function? listed))
    refine ⟨frame, framed, fun state reaches => ?_⟩
    have start : Running.Typed False (inputs.setting contract limits).contract declared
      first.returns
        ⟨frame, [], Effects.start inputs.storage⟩ :=
      code.of_frame found' count framed inputs.storage
    have along := reaches.comesTo code start
    rw [(Function.frame_eq_ok framed).1] at along
    -- what is about to happen is had by the summary of the function that the run began with
    have covered {has : Effect → Bool} (additive : Effect.Additive has) {instruction : Instruction}
        (runs : state.Runs instruction)
        (does : has (state.frame.function.effectAt state.frame.block.id instruction) = true) :
        has summary.effect = true :=
      (summed additive).mpr
        ⟨_, along, runs.has_localEffect (reaches.typed code False.elim start) additive does⟩
    refine ⟨fun dest field key runs => ?_, fun field key value runs => ?_,
      fun dest kind target amount runs => ?_⟩
    · simpa using covered (reads field) runs (by simp [Function.effectAt])
    · simpa using covered (writes field) runs (by simp [Function.effectAt])
    · exact covered Effect.additive_externalCalls runs rfl

/-- What a function writes that is called by way of another one, and calls that one back, is in the
summary of the first. -/
theorem summaries_exact_of_mutual_calls :
    let text := "contract A \x7b total: u64 balances: map<address, u64> f() \x7b self.g() \x7d " ++
      "private g() \x7b self.h() \x7d private h() \x7b self.balances[msg.sender] = self.total " ++
      "if self.total > 5 \x7b self.g() \x7d \x7d \x7d"
    ∃ summaries, Check.functionSummaries.pass.run (ofText text) [] Pass.standardBudget =
      .ok ([], summaries) ∧
      ∃ contract ∈ (ofText text).contracts, ∃ function ∈ contract.functions, function.name = "f" ∧
        ∃ summary, summaries.get? contract.name function.name = some summary ∧
        "balances" ∈ summary.effect.writes ∧
          ∃ other, contract.ComesTo function other ∧ "balances" ∈ other.localEffect.writes := by
  intro text
  have facts : total ((ofText text).contracts.map Summary.costBound) ≤ Pass.standardBudget ∧
      ∃ contract ∈ (ofText text).contracts, ∃ function ∈ contract.functions, function.name = "f" ∧
        (contract.run .standard function.name .empty).toOption.isSome = true ∧
        ∃ frame ∈ (function.frame (function.entryCells Inputs.empty.args)).toOption,
          ∃ reached ∈ Running.follow (Inputs.empty.setting contract .standard) 4
            ⟨frame, [], Effects.start []⟩,
            reached.2.frame.pending.head?.map Located.node =
              some (.storeField "balances" (some 0) 1) := by
    decide +kernel
  obtain ⟨budget, contract, member, function, listed, named, ends, frame, framed, ⟨_, state⟩,
    walked, writes⟩ := facts
  have ran : Check.functionSummaries.pass.run (ofText text) [] Pass.standardBudget =
      .ok ([], (Summaries.ofSet (ofText text)).1) :=
    if_pos ((Summaries.cost_le (ofText text)).trans budget)
  obtain ⟨summary, found, ⟨_, written, _, _⟩, runs⟩ := summaries_exact ran member listed
  obtain ⟨report, ended⟩ := Option.isSome_iff_exists.mp ends
  obtain ⟨begun, again, covered⟩ := runs _ _ report (Running.toOption_eq_some.mp ended)
  obtain rfl := Except.ok.inj (again.symm.trans (Running.toOption_eq_some.mp framed))
  have stored := (covered state (Running.shows_of_follow walked).reaches).2.1 _ _ _
    (Running.runs_of_head? writes)
  exact ⟨_, ran, contract, member, function, listed, named, summary, found, stored,
    (written _).mp stored⟩

end ContractSet

end

/-!
Runs keep to the summary of their function: they load, store and call nothing else. So a run writes
only to the fields that the summary lists, and a function with a summary that lists no writes and no
calls out of the contract only reads.
-/

/-! What is typed if something is given is typed if more is. -/

section Weakening

variable {given weaker : Prop} {contract : Contract} {declared : Declarations} {types : List Ty}

theorem Frame.Typed.weaken {awaited : Option ValueId} {frame : Frame}
    (typed : frame.Typed given contract declared types awaited) (implies : weaker → given) :
    frame.Typed weaker contract declared types awaited :=
  { typed with
    values := fun entry member ty known holds => typed.values entry member ty known (implies holds)
    locals := typed.locals.imp fun _ _ small holds => small (implies holds) }

theorem Caller.Waiting.weaken {result returns : Option Ty} {callers : List Caller}
    (waiting : Waiting given contract declared result returns callers) (implies : weaker → given) :
    Waiting weaker contract declared result returns callers := by
  induction callers generalizing returns with
  | nil => exact waiting
  | cons caller callers ih =>
    obtain ⟨⟨types, typed⟩, further⟩ := waiting
    exact ⟨⟨types, typed.frame.weaken implies, typed.dest⟩, ih further⟩

theorem Running.Typed.weaken {result : Option Ty} {state : Running}
    (typed : state.Typed given contract declared result) (implies : weaker → given) :
    state.Typed weaker contract declared result where
  frame := by
    obtain ⟨types, standing⟩ := typed.frame
    exact ⟨types, standing.weaken implies⟩
  callers := typed.callers.weaken implies
  effects := fun holds => typed.effects (implies holds)

end Weakening

namespace Running

variable {given : Prop} {contract : Contract} {declared : Declarations} {summaries : Summaries}
  {result : Option Ty} {setting : Setting} {frame : Frame} {effects : Effects}
  {state last : Running} {summary : Summary}

/-- What a run gives back fits the type that its first function returns. -/
theorem Typed.result_of_stops (typed : state.Typed given contract declared result)
    {value : Option Cell} {later : Effects} (stops : state.Stops value later) :
    ResultTyped given result value := by
  obtain ⟨types, standing⟩ := typed.frame
  have waiting := typed.callers
  rw [stops.callers] at waiting
  obtain rfl : state.frame.function.returns = result := waiting
  have checked := standing.function.ends _ _ standing.reached standing.block
  have held (id : ValueId) (used : state.frame.block.terminator.node.operand? = some id) :=
    standing.ending stops.pending used
  have yields := stops.yields
  generalize state.frame.block.terminator.location = location at yields
  generalize state.frame.block.terminator.node = node at checked held yields
  cases yields with
  | nothing =>
    cases checked with
    | retNothing returns =>
      rw [returns]
      exact .none
  | @value id cell found =>
    cases checked with
    | @retValue _ ty returns known =>
      obtain ⟨other, got, fits⟩ := held id rfl
      obtain rfl := Except.ok.inj (found.symm.trans got)
      rw [returns]
      exact .some (fits ty known)

section Summaries

variable (summarized : setting.contract.Summarized summaries)
  (code : setting.contract.Typed declared)
  (start : Typed False setting.contract declared result ⟨frame, [], effects⟩)
  (found : summaries.get? setting.contract.name frame.function.name = some summary)

include summarized code start found

theorem Runs.in_summary (reaches : Reaches setting ⟨frame, [], effects⟩ state)
    {instruction : Instruction} (runs : state.Runs instruction) {has : Effect → Bool}
    (additive : Effect.Additive has)
    (does : has (state.frame.function.effectAt state.frame.block.id instruction) = true) :
    has summary.effect = true := by
  obtain ⟨types, standing⟩ := start.frame
  exact summarized.along additive (reaches.comesTo code start) standing.member
    (runs.has_localEffect (reaches.typed code False.elim start) additive does) found

theorem Runs.load_in_summary (reaches : Reaches setting ⟨frame, [], effects⟩ state)
    {dest : ValueId} {field : String} {key : Option ValueId}
    (runs : state.Runs (.loadField dest field key)) : field ∈ summary.effect.reads := by
  simpa using runs.in_summary summarized code start found reaches
    (Effect.additive_contains Effect.reads rfl (fun _ _ => rfl) field) (by simp [Function.effectAt])

theorem Runs.store_in_summary (reaches : Reaches setting ⟨frame, [], effects⟩ state)
    {value : ValueId} {field : String} {key : Option ValueId}
    (runs : state.Runs (.storeField field key value)) : field ∈ summary.effect.writes := by
  simpa using runs.in_summary summarized code start found reaches
    (Effect.additive_contains Effect.writes rfl (fun _ _ => rfl) field)
    (by simp [Function.effectAt])

theorem onlyReads_of_summary (writes : summary.effect.writes = [])
    (calls : summary.effect.externalCalls = false) :
    OnlyReads setting (fun field => field ∈ summary.effect.reads) ⟨frame, [], effects⟩ where
  stores := by
    intro state reaches field key value runs
    have listed := runs.store_in_summary summarized code start found reaches
    simp [writes] at listed
  calls := by
    intro state reaches dest kind target amount runs
    have called :=
      runs.in_summary summarized code start found reaches Effect.additive_externalCalls rfl
    simp [calls] at called
  loads := fun state reaches dest field key runs =>
    runs.load_in_summary summarized code start found reaches

/-- A run writes only to fields that the summary of its function lists. -/
theorem Reaches.stores_in_summary (reaches : Reaches setting ⟨frame, [], effects⟩ last) :
    ∀ store ∈ last.effects.stores, store ∈ effects.stores ∨
      store.place.field ∈ summary.effect.writes := by
  have general {state final : Running} (before : Reaches setting ⟨frame, [], effects⟩ state)
      (further : Reaches setting state final) :
      ∀ store ∈ final.effects.stores, store ∈ state.effects.stores ∨ store.place.field ∈
        summary.effect.writes := by
    induction further with
    | refl => exact fun store member => .inl member
    | @step state next final leads _ ih =>
      intro store member
      refine (ih (before.trans (.step leads (.refl _))) store member).elim (fun member => ?_) .inr
      cases leads.move with
      | @instruct instruction rest after later pending does =>
        obtain ⟨node, location⟩ := instruction
        rcases does.stored with same | ⟨field, key, value, place, cell, rfl, placed, _, same⟩
        · exact .inl (same.stores ▸ member)
        · have named : place.field = field := congrArg StorageKey.field (Frame.place_eq placed)
          have runs : state.Runs (.storeField field key value) := ⟨location, rest, pending⟩
          have listed := runs.store_in_summary summarized code start found before
          rw [same.stores] at member
          rcases List.mem_cons.mp member with rfl | older
          · exact .inr (named ▸ listed)
          · exact .inl older
      | call => exact .inl member
      | goto _ goes _ => exact .inl (goes.same.stores ▸ member)
      | giveBack _ yields _ => exact .inl (yields.same.stores ▸ member)
  exact general (.refl _) reaches

end Summaries

end Running

end Covenant
