import Covenant.Proofs.Code.Provenance
import Covenant.Proofs.Run.Outermost
import Covenant.Scan.Scanner

/-!
The summaries of functions are complete: what a function and all that it calls can do is in its
summary. Effects are spread to callers as often as there are functions, which is enough, since a
round that reaches no further function is the last one that matters.
-/

namespace Covenant

namespace Names

theorem mem_add {name other : String} {set : Names} :
    other ∈ add name set ↔ other = name ∨ other ∈ set := by
  induction set with
  | nil => simp [add]
  | cons first rest ih =>
    simp only [add]
    split
    · rename_i same
      rw [beq_iff_eq] at same
      subst same
      simp
    · split
      · simp
      · simp only [List.mem_cons, ih]
        tauto

theorem length_le_add (name : String) (set : Names) : set.length ≤ (add name set).length := by
  induction set with
  | nil => exact Nat.zero_le _
  | cons first rest ih =>
    simp only [add]
    split
    · exact Nat.le_refl _
    · split
      · exact Nat.le_succ _
      · exact Nat.succ_le_succ ih

theorem add_eq_of_length_le {name : String} {set : Names}
    (most : (add name set).length ≤ set.length) :
    add name set = set := by
  induction set with
  | nil => simp [add] at most
  | cons first rest ih =>
    simp only [add] at most ⊢
    split
    · rfl
    · rename_i other
      rw [if_neg other] at most
      split
      · rename_i before
        rw [if_pos before, List.length_cons] at most
        omega
      · rename_i behind
        rw [if_neg behind] at most
        rw [ih (Nat.le_of_succ_le_succ most)]

theorem length_le_join (left right : Names) : left.length ≤ (left.join right).length := by
  unfold join
  induction right generalizing left with
  | nil => exact Nat.le_refl _
  | cons first rest ih => exact (length_le_add first left).trans (ih _)

theorem join_eq_of_length_le {left right : Names} (most : (left.join right).length ≤ left.length) :
    left.join right = left := by
  unfold join at most ⊢
  induction right generalizing left with
  | nil => rfl
  | cons first rest ih =>
    rw [List.foldl_cons] at most ⊢
    have same : add first left = left :=
      add_eq_of_length_le ((length_le_join (add first left) rest).trans most)
    rw [same] at most ⊢
    exact ih most

theorem mem_join {left right : Names} {name : String} :
    name ∈ left.join right ↔ name ∈ left ∨ name ∈ right := by
  unfold join
  induction right generalizing left with
  | nil => simp
  | cons first rest ih =>
    simp only [List.foldl_cons, ih, mem_add, List.mem_cons]
    tauto

theorem mem_ofList {names : List String} {name : String} : name ∈ ofList names ↔ name ∈ names := by
  change name ∈ join [] names ↔ name ∈ names
  simp [mem_join]

end Names

namespace Effect

structure Additive (has : Effect → Bool) : Prop where
  none : has Effect.none = false
  join : ∀ left right, has (left.join right) = (has left || has right)

theorem additive_contains (part : Effect → Names) (empty : part none = [])
    (joins : ∀ left right, part (left.join right) = (part left).join (part right))
    (field : String) :
    Additive fun effect => (part effect).contains field := by
  refine ⟨by simp [empty], fun left right => ?_⟩
  simp only [joins, List.contains_eq_mem]
  rw [Bool.eq_iff_iff]
  simp [Names.mem_join]

structure Within (effect other : Effect) : Prop where
  reads : effect.reads.length ≤ other.reads.length
  writes : effect.writes.length ≤ other.writes.length
  sharedWrites : effect.sharedWrites.length ≤ other.sharedWrites.length
  externalCalls : effect.externalCalls = true → other.externalCalls = true

theorem Within.trans {first second third : Effect} (one : first.Within second)
    (two : second.Within third) :
    first.Within third :=
  ⟨one.reads.trans two.reads, one.writes.trans two.writes, one.sharedWrites.trans two.sharedWrites,
    two.externalCalls ∘ one.externalCalls⟩

theorem within_of_size {effect other : Effect} (same : effect.size = other.size) :
    effect.Within other := by
  simp only [size, Prod.mk.injEq] at same
  exact ⟨same.1.le, same.2.1.le, same.2.2.1.le, fun calls => same.2.2.2 ▸ calls⟩

theorem within_join (left right : Effect) : left.Within (left.join right) :=
  ⟨Names.length_le_join _ _, Names.length_le_join _ _, Names.length_le_join _ _,
    fun calls => by simp [join, calls]⟩

theorem join_eq_of_within {left right : Effect} (most : (left.join right).Within left) :
    left.join right = left := by
  obtain ⟨reads, writes, shared, calls⟩ := left
  have called : (calls || right.externalCalls) = calls := by
    cases calls with
    | true => rfl
    | false => exact Bool.eq_false_iff.mpr fun added => absurd (most.externalCalls added) nofun
  simp only [join, Effect.mk.injEq]
  exact ⟨Names.join_eq_of_length_le most.reads, Names.join_eq_of_length_le most.writes,
    Names.join_eq_of_length_le most.sharedWrites, called⟩

theorem additive_externalCalls : Additive fun effect => effect.externalCalls :=
  ⟨rfl, fun _ _ => rfl⟩

end Effect

/-! What a function does by itself. -/

namespace Function

def effectAt (function : Function) (block : BlockId) : Instruction → Effect
  | .loadField _ field _ => { Effect.none with reads := [field] }
  | .storeField field key _ =>
    { Effect.none with
      writes := [field]
      sharedWrites := if function.isSenderKeyed block key then [] else [field] }
  | .externalCall _ _ _ _ => { Effect.none with externalCalls := true }
  | _ => Effect.none

variable {function : Function}

theorem localEffect_eq (function : Function) : function.localEffect =
    function.instructions.foldl
      (fun effect entry => effect.join (function.effectAt entry.1 entry.2.node)) Effect.none := by
  unfold localEffect
  congr 1
  funext effect ⟨block, node, location⟩
  obtain ⟨reads, writes, shared, calls⟩ := effect
  cases node <;> simp only [effectAt, Effect.join, Effect.none, Names.join, List.foldl_nil,
    List.foldl_cons, Bool.or_false, Bool.or_true]
  split <;> rfl

theorem has_localEffect {has : Effect → Bool} (additive : Effect.Additive has) :
    has function.localEffect = true ↔
      ∃ entry ∈ function.instructions, has (function.effectAt entry.1 entry.2.node) = true := by
  have general (entries : List (BlockId × Located Instruction)) (start : Effect) :
      has (entries.foldl (fun effect entry => effect.join (function.effectAt entry.1 entry.2.node))
        start) = true ↔
        has start = true ∨ ∃ entry ∈ entries,
          has (function.effectAt entry.1 entry.2.node) = true := by
    induction entries generalizing start with
    | nil => simp
    | cons entry rest ih =>
      rw [List.foldl_cons, ih, additive.join, Bool.or_eq_true, or_assoc]
      simp only [List.mem_cons, exists_eq_or_imp]
  rw [localEffect_eq, general, additive.none]
  simp

theorem mem_callees {block : BlockId} {location : Location} {dest : Option ValueId} {name : String}
    {args : List ValueId}
    (member : (block, ⟨.call dest name args, location⟩) ∈ function.instructions) :
    name ∈ function.callees :=
  Names.mem_ofList.mpr (List.mem_filterMap.mpr ⟨_, member, rfl⟩)

end Function

namespace Summary

def Closed (has : Effect → Bool) (table : EffectTable) : Prop :=
  ∀ name callees effect, (name, callees, effect) ∈ table → ∀ callee ∈ callees, ∀ others added,
    table.lookup callee = some (others, added) → has added = true → has effect = true

def spreadEntry (table : EffectTable) (callees : Names) (effect : Effect) : Effect :=
  callees.foldl (fun total callee =>
    match table.lookup callee with
    | some (_, added) => total.join added
    | none => total) effect

theorem spread_eq (table : EffectTable) :
    spread table = table.map fun entry =>
      (entry.1, entry.2.1, spreadEntry table entry.2.1 entry.2.2) := rfl

variable {has : Effect → Bool} {table : EffectTable}

theorem has_spreadEntry (additive : Effect.Additive has) {callees : Names} {effect : Effect} :
    has (spreadEntry table callees effect) = true ↔
      has effect = true ∨
        ∃ callee ∈ callees, ∃ others added, table.lookup callee = some (others, added) ∧
        has added = true := by
  unfold spreadEntry
  induction callees generalizing effect with
  | nil => simp
  | cons callee rest ih =>
    simp only [List.foldl_cons, ih, List.mem_cons, exists_eq_or_imp]
    cases found : table.lookup callee with
    | none => simp
    | some entry =>
      obtain ⟨others, added⟩ := entry
      simp only [additive.join effect added, Bool.or_eq_true, Option.some.injEq, Prod.mk.injEq]
      constructor
      · rintro ((here | there) | later)
        · exact .inl here
        · exact .inr (.inl ⟨others, added, ⟨rfl, rfl⟩, there⟩)
        · exact .inr (.inr later)
      · rintro (here | ⟨_, _, ⟨rfl, rfl⟩, there⟩ | later)
        · exact .inl (.inl here)
        · exact .inl (.inr there)
        · exact .inr later

theorem within_spreadEntry (table : EffectTable) (callees : Names) (effect : Effect) :
    effect.Within (spreadEntry table callees effect) := by
  unfold spreadEntry
  induction callees generalizing effect with
  | nil => exact Effect.within_of_size rfl
  | cons callee rest ih =>
    rw [List.foldl_cons]
    cases table.lookup callee with
    | none => exact ih effect
    | some entry => exact (effect.within_join entry.2).trans (ih _)

theorem spreadEntry_eq_of_within {callees : Names} {effect : Effect}
    (most : (spreadEntry table callees effect).Within effect) :
    spreadEntry table callees effect = effect := by
  unfold spreadEntry at most ⊢
  induction callees generalizing effect with
  | nil => rfl
  | cons callee rest ih =>
    rw [List.foldl_cons] at most ⊢
    cases found : table.lookup callee with
    | none =>
      simp only [found] at most ⊢
      exact ih most
    | some entry =>
      simp only [found] at most ⊢
      have same : effect.join entry.2 = effect :=
        Effect.join_eq_of_within ((within_spreadEntry table rest _).trans most)
      rw [same] at most ⊢
      exact ih most

theorem spread_eq_of_sizes (same : sizes (spread table) = sizes table) : spread table = table := by
  have general (entries : EffectTable)
      (same : sizes
        (entries.map fun entry => (entry.1, entry.2.1, spreadEntry table entry.2.1 entry.2.2)) =
        sizes entries) :
      (entries.map fun entry => (entry.1, entry.2.1, spreadEntry table entry.2.1 entry.2.2)) =
        entries := by
    induction entries with
    | nil => rfl
    | cons first rest ih =>
      simp only [sizes, List.map_cons, List.cons.injEq] at same
      rw [List.map_cons, spreadEntry_eq_of_within (Effect.within_of_size same.1), ih same.2]
  rw [spread_eq] at same ⊢
  exact general table same

theorem lookup_spread (name : String) : (spread table).lookup name =
    (table.lookup name).map fun entry => (entry.1, spreadEntry table entry.1 entry.2) := by
  have general (entries : EffectTable) :
      (entries.map fun entry => (entry.1, entry.2.1, spreadEntry table entry.2.1 entry.2.2)).lookup
        name =
        (entries.lookup name).map fun entry => (entry.1, spreadEntry table entry.1 entry.2) := by
    induction entries with
    | nil => rfl
    | cons first rest ih =>
      obtain ⟨written, callees, effect⟩ := first
      simp only [List.map_cons, List.lookup_cons]
      cases name == written with
      | true => rfl
      | false => exact ih
  rw [spread_eq]
  exact general table

def countWith (has : Effect → Bool) (table : EffectTable) : Nat :=
  table.countP fun entry => has entry.2.2

theorem countWith_le (has : Effect → Bool) (table : EffectTable) :
    countWith has table ≤ table.length :=
  List.countP_le_length

theorem countP_map_le {α : Type} {change : α → α} {holds : α → Bool} {items : List α}
    (keeps : ∀ item ∈ items, holds item = true → holds (change item) = true) :
    items.countP holds ≤ (items.map change).countP holds := by
  rw [List.countP_map]
  exact List.countP_mono_left keeps

theorem iff_of_countP_map_eq {α : Type} {change : α → α} {holds : α → Bool} {items : List α}
    (keeps : ∀ item ∈ items, holds item = true → holds (change item) = true)
    (same : (items.map change).countP holds ≤ items.countP holds) :
    ∀ item ∈ items, holds (change item) = true → holds item = true := by
  induction items with
  | nil => simp
  | cons first rest ih =>
    have later := countP_map_le fun item member => keeps item (List.mem_cons_of_mem _ member)
    have here := keeps first List.mem_cons_self
    simp only [List.map_cons, List.countP_cons] at same
    intro item member holds'
    rcases List.mem_cons.mp member with rfl | behind
    · by_cases before : holds item = true
      · exact before
      · rw [if_pos holds', if_neg before] at same
        omega
    · refine ih (fun item member => keeps item (List.mem_cons_of_mem _ member)) ?_ item
        behind holds'
      by_cases before : holds first = true
      · rw [if_pos before, if_pos (here before)] at same
        omega
      · rw [if_neg before] at same
        omega

theorem closed_of_countWith (additive : Effect.Additive has)
    (same : countWith has (spread table) ≤ countWith has table) : Closed has table := by
  rw [spread_eq] at same
  intro name callees effect member callee called others added found holds
  have back := @iff_of_countP_map_eq _ _ (fun entry : String × Names × Effect => has entry.2.2)
    table (fun entry _ holds => (has_spreadEntry additive).mpr (.inl holds)) same
    (name, callees, effect) member
  exact back ((has_spreadEntry additive).mpr (.inr ⟨callee, called, others, added, found, holds⟩))

theorem Closed.spread (closed : Closed has table) (additive : Effect.Additive has) :
    Closed has (spread table) := by
  intro name callees effect member callee called others added found holds
  rw [spread_eq] at member
  obtain ⟨⟨first, known, before⟩, listed, same⟩ := List.mem_map.mp member
  simp only [Prod.mk.injEq] at same
  obtain ⟨rfl, rfl, rfl⟩ := same
  rw [lookup_spread] at found
  obtain ⟨⟨calls, old⟩, there, same⟩ := Option.map_eq_some_iff.mp found
  simp only [Prod.mk.injEq] at same
  obtain ⟨rfl, rfl⟩ := same
  refine (has_spreadEntry additive).mpr (.inr ⟨callee, called, calls, old, there, ?_⟩)
  rcases (has_spreadEntry additive).mp holds with here
    | ⟨inner, calledThere, further, more, deeper, holds⟩
  · exact here
  · exact closed callee calls old (mem_of_lookup there) inner calledThere further more deeper holds

theorem Closed.settle (closed : Closed has table) (additive : Effect.Additive has) (fuel : Nat) :
    Closed has (settle fuel table).1 := by
  induction fuel generalizing table with
  | zero => exact closed
  | succ fuel ih =>
    simp only [Summary.settle]
    split
    · exact closed.spread additive
    · exact ih (closed.spread additive)

theorem length_spread : (spread table).length = table.length := by
  rw [spread_eq, List.length_map]

theorem closed_settle (additive : Effect.Additive has) {fuel : Nat}
    (enough : table.length < fuel + countWith has table) :
    Closed has (settle fuel table).1 := by
  induction fuel generalizing table with
  | zero =>
    have most := countWith_le has table
    omega
  | succ fuel ih =>
    simp only [settle]
    split
    · rename_i same
      have settled : spread table = table := spread_eq_of_sizes (eq_of_beq same)
      rw [settled]
      exact closed_of_countWith additive (by rw [settled])
    · by_cases grown : countWith has table < countWith has (spread table)
      · refine ih ?_
        rw [length_spread]
        omega
      · exact ((closed_of_countWith additive (by omega)).spread additive).settle additive fuel

theorem lookup_settle {name : String} {callees : Names} {effect : Effect}
    (found : table.lookup name = some (callees, effect)) (fuel : Nat) :
    ∃ final, (settle fuel table).1.lookup name = some (callees, final) ∧
      ∀ has, Effect.Additive has → has effect = true → has final = true := by
  induction fuel generalizing table effect with
  | zero => exact ⟨effect, found, fun _ _ holds => holds⟩
  | succ fuel ih =>
    simp only [settle]
    split
    · rename_i same
      rw [spread_eq_of_sizes (eq_of_beq same)]
      exact ⟨effect, found, fun _ _ holds => holds⟩
    · have next : (spread table).lookup name =
          some (callees, spreadEntry table callees effect) := by
        rw [lookup_spread, found]
        rfl
      obtain ⟨final, there, keeps⟩ := ih next
      exact ⟨final, there, fun has additive holds =>
        keeps has additive ((has_spreadEntry additive).mpr (.inl holds))⟩

end Summary

def Summary.locally (contract : Contract) : Summary.EffectTable :=
  contract.functions.map fun function => (function.name, function.callees, function.localEffect)

structure Contract.Summarized (contract : Contract) (summaries : Summaries) : Prop where
  found : ∀ function ∈ contract.functions, ∃ summary, summaries.get? contract.name function.name =
    some summary
  own : ∀ function ∈ contract.functions, ∀ summary, summaries.get? contract.name function.name =
    some summary →
    ∀ has, Effect.Additive has → has function.localEffect = true → has summary.effect = true
  called : ∀ function ∈ contract.functions, ∀ summary, summaries.get? contract.name function.name =
    some summary →
    ∀ callee ∈ function.callees, ∀ other, summaries.get? contract.name callee = some other →
      ∀ has, Effect.Additive has → has other.effect = true → has summary.effect = true

namespace Summary

theorem find?_ofContract (contract : Contract) (name : String) :
    ((ofContract contract).1.find? fun summary => summary.name == name).map
        (fun summary => (summary.callees, summary.effect)) =
      (settle (contract.functions.length + 1) (locally contract)).1.lookup name := by
  unfold ofContract
  change ((settle (contract.functions.length + 1) (locally contract)).1.map _ |>.find? _).map _ = _
  generalize (settle (contract.functions.length + 1) (locally contract)).1 = table
  induction table with
  | nil => rfl
  | cons first rest ih =>
    obtain ⟨written, callees, effect⟩ := first
    simp only [List.map_cons, List.find?_cons, List.lookup_cons]
    rw [Bool.beq_comm]
    cases name == written with
    | true => rfl
    | false => exact ih

end Summary

theorem Summary.settle_cost_le (fuel : Nat) (table : Summary.EffectTable) :
    (Summary.settle fuel table).2 ≤ fuel := by
  induction fuel generalizing table with
  | zero => exact Nat.le_refl _
  | succ fuel ih =>
    simp only [settle]
    split
    · exact Nat.succ_le_succ (Nat.zero_le _)
    · exact Nat.succ_le_succ (ih _)

theorem Summary.settleChecks_cost_le (contract : Contract) (fuel : Nat) (known : List String) :
    (Summary.settleChecks contract fuel known).2 ≤ fuel := by
  induction fuel generalizing known with
  | zero => exact Nat.le_refl _
  | succ fuel ih =>
    simp only [settleChecks]
    split
    · exact Nat.succ_le_succ (Nat.zero_le _)
    · exact Nat.succ_le_succ (ih _)

def Summary.costBound (contract : Contract) : Nat :=
  sweepCost contract + (contract.functions.length + 1) * contract.functions.length +
    (contract.functions.length + 1) * sweepCost contract

theorem Summary.cost_le (contract : Contract) : (ofContract contract).2 ≤ costBound contract := by
  have spreads := settle_cost_le (contract.functions.length + 1) (locally contract)
  have sweeps := settleChecks_cost_le contract (contract.functions.length + 1) []
  exact Nat.add_le_add (Nat.add_le_add_left (Nat.mul_le_mul_right _ spreads) _)
    (Nat.mul_le_mul_right _ sweeps)

theorem Summaries.cost_le (set : ContractSet) :
    (ofSet set).2 ≤ total (set.contracts.map Summary.costBound) := by
  simp only [ofSet, List.map_map]
  induction set.contracts with
  | nil => exact Nat.le_refl _
  | cons contract rest ih => exact Nat.add_le_add (Summary.cost_le contract) ih

theorem Summaries.get?_ofSet {set : ContractSet} {contract : Contract}
    (found : set.contract? contract.name = some contract) (name : String) :
    (ofSet set).1.get? contract.name name = (Summary.ofContract contract).1.find? fun summary =>
      summary.name == name := by
  have listed : (ofSet set).1 = set.contracts.map fun contract =>
      (contract.name, (Summary.ofContract contract).1) := by
    simp only [ofSet, List.map_map]
    rfl
  rw [get?, listed, lookup_map set.contracts Contract.name
    (fun contract => (Summary.ofContract contract).1)]
  rw [ContractSet.contract?] at found
  rw [found]
  rfl

theorem Contract.WellFormed.summarized {contract : Contract} (formed : contract.WellFormed)
    {set : ContractSet} (found : set.contract? contract.name = some contract) :
    contract.Summarized (Summaries.ofSet set).1 := by
  let table := Summary.locally contract
  have start (function : Function) (member : function ∈ contract.functions) :
      table.lookup function.name = some (function.callees, function.localEffect) := by
    have listed := lookup_map contract.functions Function.name
      (fun function => (function.callees, function.localEffect)) function.name
    rw [find?_eq_some_of_nodup formed.functionNames member] at listed
    exact listed
  have final (name : String) (summary : Summary)
      (got : (Summaries.ofSet set).1.get? contract.name name = some summary) :
      (Summary.settle (contract.functions.length + 1) table).1.lookup name =
        some (summary.callees, summary.effect) := by
    rw [Summaries.get?_ofSet found] at got
    rw [← Summary.find?_ofContract, got]
    rfl
  have count : table.length = contract.functions.length := List.length_map ..
  refine ⟨?_, ?_, ?_⟩
  · intro function member
    obtain ⟨effect, there, _⟩ :=
      Summary.lookup_settle (start function member) (contract.functions.length + 1)
    rw [← Summary.find?_ofContract, ← Summaries.get?_ofSet found] at there
    obtain ⟨summary, got, _⟩ := Option.map_eq_some_iff.mp there
    exact ⟨summary, got⟩
  · intro function member summary got has additive holds
    obtain ⟨effect, there, keeps⟩ :=
      Summary.lookup_settle (start function member) (contract.functions.length + 1)
    rw [final _ _ got] at there
    obtain ⟨_, rfl⟩ := Prod.mk.inj (Option.some.inj there)
    exact keeps has additive holds
  · intro function member summary got callee listed other gotOther has additive holds
    obtain ⟨effect, there, _⟩ :=
      Summary.lookup_settle (start function member) (contract.functions.length + 1)
    have here := final _ _ got
    rw [here] at there
    have callees : summary.callees = function.callees := (Prod.mk.inj (Option.some.inj there)).1
    have closed : Summary.Closed has (Summary.settle (contract.functions.length + 1) table).1 :=
      Summary.closed_settle additive (by rw [count]; omega)
    exact closed _ _ _ (mem_of_lookup here) callee (callees ▸ listed) _ _ (final _ _ gotOther) holds

theorem ContractSet.summarized {text : String} {contract : Contract}
    (member : contract ∈ (ofText text).contracts) :
    contract.Summarized (Summaries.ofSet (ofText text)).1 :=
  (wellFormed_of_ofText member).summarized (find?_eq_some_of_nodup (ofText_names text) member)

theorem Post.Serves.mem_callees {contract : Contract} {declared : Declarations} {upper lower : Post}
    (serves : upper.Serves lower) (stands : lower.Stands contract declared) :
    upper.function.name ∈ lower.function.callees := by
  obtain ⟨dest, args, location, calls⟩ := serves
  exact Function.mem_callees
    (Function.mem_instructions (List.mem_of_getElem? stands.block) (List.mem_of_getElem? calls))

/-- Where calls wait for each other, what the innermost function has by itself or through others is
had by the function that the outermost one calls. -/
theorem Contract.Summarized.callee_has {contract : Contract} {summaries : Summaries}
    (summarized : contract.Summarized summaries) {has : Effect → Bool}
    (additive : Effect.Additive has) {declared : Declarations} {post : Post} {below : List Post}
    (serves : (post :: below).IsChain Post.Serves)
    (stands : ∀ other ∈ post :: below, other.Stands contract declared)
    (inner : ∀ summary, summaries.get? contract.name post.function.name = some summary →
      has summary.effect = true)
    (waits : below ≠ []) :
    ∃ upper ∈ post :: below, ∃ dest args location, (below.getLast waits).instruction? =
        some ⟨.call dest upper.function.name args, location⟩ ∧
      ∃ summary, summaries.get? contract.name upper.function.name = some summary ∧
      has summary.effect = true := by
  induction below generalizing post with
  | nil => exact absurd rfl waits
  | cons lower rest ih =>
    obtain ⟨served, further⟩ := List.isChain_cons_cons.mp serves
    obtain ⟨here, later⟩ := List.forall_mem_cons.mp stands
    obtain ⟨summary, found⟩ := summarized.found post.function here.member
    by_cases last : rest = []
    · subst last
      obtain ⟨dest, args, location, calls⟩ := served
      exact ⟨post, List.mem_cons_self, dest, args, location, calls, summary, found,
        inner summary found⟩
    · have waiting := later lower List.mem_cons_self
      have listed := served.mem_callees waiting
      obtain ⟨upper, member, known⟩ := ih further later (fun other there =>
        summarized.called _ waiting.member other there _ listed summary found has additive
          (inner summary found)) last
      rw [List.getLast_cons last]
      exact ⟨upper, List.mem_cons_of_mem _ member, known⟩

theorem Running.Runs.has_localEffect {contract : Contract} {declared : Declarations}
    {result : Option Ty} {state : Running} {instruction : Instruction}
    (runs : state.Runs instruction) (typed : state.Typed False contract declared result)
    {has : Effect → Bool} (additive : Effect.Additive has)
    (does : has (state.frame.function.effectAt state.frame.block.id instruction) = true) :
    has state.frame.function.localEffect = true := by
  obtain ⟨location, rest, pending⟩ := runs
  obtain ⟨types, standing⟩ := typed.frame
  have here := List.mem_of_getElem? (standing.instruction?_post pending)
  exact (Function.has_localEffect additive).mpr
    ⟨_, Function.mem_instructions (List.mem_of_getElem? standing.block) here, does⟩

/-- What running code is about to do is to be seen at the place of the first function of the run: it
is what stands there, or it is in the summary of the function that is called there. -/
theorem Running.Runs.at_outermost {contract : Contract} {declared : Declarations}
    {result : Option Ty} {state : Running} {summaries : Summaries} {instruction : Instruction}
    (runs : state.Runs instruction) (typed : state.Typed False contract declared result)
    (linked : state.Linked) (summarized : contract.Summarized summaries) {has : Effect → Bool}
    (additive : Effect.Additive has)
    (does : has (state.frame.function.effectAt state.frame.block.id instruction) = true) :
    (state.outermost = state.frame.post ∧ ∃ location, state.outermost.instruction? =
      some ⟨instruction, location⟩) ∨
      ∃ upper ∈ state.posts, ∃ dest args location, state.outermost.instruction? =
          some ⟨.call dest upper.function.name args, location⟩ ∧
        ∃ summary, summaries.get? contract.name upper.function.name = some summary ∧
        has summary.effect = true := by
  have own := runs.has_localEffect typed additive does
  obtain ⟨location, rest, pending⟩ := runs
  obtain ⟨types, standing⟩ := typed.frame
  have here := standing.instruction?_post pending
  by_cases alone : state.callers.map Caller.post = []
  · have last : state.outermost = state.frame.post := by simp [outermost, posts, alone]
    exact .inl ⟨last, location, last ▸ here⟩
  · have inner : ∀ summary, summaries.get? contract.name state.frame.function.name = some summary →
        has summary.effect = true := fun summary found =>
      summarized.own _ standing.member summary found has additive own
    have last : state.outermost = (state.callers.map Caller.post).getLast alone :=
      List.getLast_cons alone
    rw [last]
    exact .inr (summarized.callee_has additive linked.serves typed.stands inner alone)

/-! What the checks of the scanner give. -/

theorem Finding.mem_openFunctions {set : ContractSet} {contract : Contract}
    (member : contract ∈ set.contracts) {function : Function}
    (listed : function ∈ contract.functions) (everyone : function.kind = .everyone) :
    (contract, function) ∈ openFunctions set := by
  refine List.mem_filter.mpr
    ⟨List.mem_flatMap.mpr ⟨contract, member, List.mem_map.mpr ⟨function, listed, rfl⟩⟩, ?_⟩
  simp [everyone]

theorem Finding.mem_reachableInstructions {contract : Contract} {declared : Declarations}
    {post : Post} (stands : post.Stands contract declared) {instruction : Located Instruction}
    (found : post.instruction? = some instruction) :
    (post.block.id, post.index, instruction) ∈ reachableInstructions post.function := by
  obtain ⟨types, typed⟩ := stands.function
  refine List.mem_flatMap.mpr
    ⟨post.block, List.mem_filter.mpr ⟨List.mem_of_getElem? stands.block, ?_⟩, ?_⟩
  · simpa using typed.mem_reversePostorder stands.reached
  · exact List.mem_map.mpr ⟨(instruction, post.index), List.mem_zipIdx_iff_getElem?.mpr found, rfl⟩

/-- Whether a check completes with the given findings, those that it depends on having completed as
well. -/
def Check.Completes (check : Check) (set : ContractSet) (budget : Nat) (issues : List Issue) :
    Prop :=
  ∃ facts fact,
    (∀ other ∈ check.depends, ∃ found known, other.pass.run set [] budget = .ok (found, known) ∧
      facts.lookup other = some known) ∧
    check.pass.run set facts budget = .ok (issues, fact)

theorem Check.completes (check : Check) {set : ContractSet} {budget : Nat}
    (finds : check ≠ functionSummaries) (summaries : (Summaries.ofSet set).2 ≤ budget)
    (cost : (check.findings (Summaries.ofSet set).1 set).cost ≤ budget) :
    check.Completes set budget (check.findings (Summaries.ofSet set).1 set).issues := by
  refine ⟨[(functionSummaries, (Summaries.ofSet set).1)], [], fun other needed => ?_, ?_⟩
  · obtain rfl : other = functionSummaries := by
      cases check <;> simp_all [Check.depends]
    exact ⟨[], _, if_pos summaries, rfl⟩
  · cases check with
    | functionSummaries => exact absurd rfl finds
    | _ => exact if_pos cost

theorem Check.eq_of_within {α : Type} {check : Check} {cost budget : Nat} {result given : α}
    (ran : check.within cost budget result = .ok given) : given = result := by
  unfold within at ran
  split at ran
  · exact (Except.ok.inj ran).symm
  · simp at ran

theorem Check.Completes.issues_eq {check : Check} {set : ContractSet} {budget : Nat}
    {issues : List Issue} (completes : check.Completes set budget issues) :
    issues = (check.findings (Summaries.ofSet set).1 set).issues := by
  obtain ⟨facts, fact, before, ran⟩ := completes
  have known (depends : functionSummaries ∈ check.depends) :
      (facts.lookup functionSummaries).getD [] = (Summaries.ofSet set).1 := by
    obtain ⟨found, known, summarized, there⟩ := before functionSummaries depends
    rw [there]
    exact congrArg Prod.snd (eq_of_within summarized)
  cases check with
  | functionSummaries => exact congrArg Prod.fst (eq_of_within ran)
  | reentrancy => exact (known List.mem_cons_self) ▸ congrArg Prod.fst (eq_of_within ran)
  | missingAccessControl => exact (known List.mem_cons_self) ▸ congrArg Prod.fst (eq_of_within ran)
  | _ => exact congrArg Prod.fst (eq_of_within ran)

end Covenant
