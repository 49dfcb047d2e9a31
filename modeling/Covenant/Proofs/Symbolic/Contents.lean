import Covenant.Proofs.Run.Lockstep
import Covenant.Proofs.Run.Outermost
import Covenant.Proofs.Run.Storage
import Covenant.Proofs.Scan.Summaries
import Covenant.Proofs.Symbolic.Arena
import Covenant.Symbolic.Explorer

/-!
What a path says that storage holds is what storage holds. Writes are looked through from the last
one on, past those to other places; where a write may have gone to the place or not, the contents
are an unknown that is named by how often its field was written. A call of a function that only
reads is named by the same numbers for the fields that it can read, so two calls with one name find
the same contents there.
-/

namespace Covenant

/-! Writing to storage. -/

def StoreEvent.place (numbers : SymbolId → Nat) (event : StoreEvent) : StorageKey :=
  ⟨event.field, event.key.map numbers⟩

def Storage.after (initial : Storage) (numbers : SymbolId → Nat) (events : List StoreEvent) :
    Storage :=
  events.foldl (fun storage event => storage.put (event.place numbers) (numbers event.value))
    initial

namespace Storage

variable {initial : Storage} {numbers : SymbolId → Nat} {place : StorageKey} {event : StoreEvent}
  {events : List StoreEvent}

theorem after_concat (initial : Storage) (numbers : SymbolId → Nat) (events : List StoreEvent)
    (event : StoreEvent) :
    initial.after numbers (events ++ [event]) =
      (initial.after numbers events).put (event.place numbers) (numbers event.value) := by
  simp only [after, List.foldl_append, List.foldl_cons, List.foldl_nil]

theorem get_after_concat_same (goes : event.place numbers = place) :
    (initial.after numbers (events ++ [event])).get place = numbers event.value := by
  rw [after_concat, goes]
  exact get_put_same place _ _

theorem get_after_concat_other (apart : event.place numbers ≠ place) :
    (initial.after numbers (events ++ [event])).get place =
      (initial.after numbers events).get place := by
  rw [after_concat]
  exact get_put_other (Ne.symm apart) _ _

theorem get_after_append_other {later : List StoreEvent}
    (apart : ∀ event ∈ later, event.place numbers ≠ place) :
    (initial.after numbers (events ++ later)).get place =
      (initial.after numbers events).get place := by
  induction later using List.reverseRecOn with
  | nil => rw [List.append_nil]
  | append_singleton later event ih =>
    rw [← List.append_assoc,
      get_after_concat_other (apart event (List.mem_append_right _ List.mem_cons_self))]
    exact ih fun other member => apart other (List.mem_append_left _ member)

theorem get_after_filter (initial : Storage) (numbers : SymbolId → Nat) (place : StorageKey)
    (events : List StoreEvent) :
    (initial.after numbers (events.filter fun event => event.field == place.field)).get place =
      (initial.after numbers events).get place := by
  induction events using List.reverseRecOn with
  | nil => rfl
  | append_singleton events event ih =>
    rw [List.filter_append]
    by_cases same : event.field = place.field
    · have kept : [event].filter (fun event => event.field == place.field) =
          [event] := by simp [same]
      rw [kept, after_concat, after_concat]
      by_cases here : event.place numbers = place
      · rw [here, get_put_same, get_put_same]
      · rw [get_put_other (Ne.symm here), get_put_other (Ne.symm here), ih]
    · have dropped : [event].filter (fun event => event.field == place.field) = [] := by simp [same]
      have apart : event.place numbers ≠ place := fun goes => same (congrArg StorageKey.field goes)
      rw [dropped, List.append_nil, ih, get_after_concat_other apart]

end Storage

namespace PathState

def writeAll (state : PathState) (events : List StoreEvent) : PathState :=
  events.foldl (fun state event => state.write event.field event.key event.value) state

def heldAt (state : PathState) (initial : Storage) (numbers : SymbolId → Nat) (place : StorageKey)
    (version : Nat) : Nat :=
  (initial.after numbers
    ((state.stores.filter fun event => event.field == place.field).take version)).get place

/-- Whether numbers are what values stand for on a path: constants stand for themselves, and the
unknowns of storage for what their places held after as many writes to their fields as they are
named by. -/
structure Reading (state : PathState) (arena : Arena) (initial : Storage)
    (numbers : SymbolId → Nat) : Prop where
  constants : ∀ id value, arena.const? id = some value → numbers id = value
  contents : ∀ id name key version, arena.term? id = some (.field name key version) →
    version ≤ state.version name →
    numbers id = state.heldAt initial numbers ⟨name, key.map numbers⟩ version

variable {state : PathState} {initial : Storage} {numbers : SymbolId → Nat}

theorem stores_write (state : PathState) (field : String) (key : Option SymbolId)
    (value : SymbolId) :
    (state.write field key value).stores = state.stores ++ [⟨field, key, value⟩] := by
  simp only [stores, write, List.reverse_cons]

theorem stores_writeAll (state : PathState) (events : List StoreEvent) :
    (state.writeAll events).stores = state.stores ++ events := by
  induction events generalizing state with
  | nil => exact (List.append_nil _).symm
  | cons event rest ih =>
    rw [writeAll, List.foldl_cons, ← writeAll, ih, stores_write, List.append_assoc]
    rfl

theorem startsEmpty_writeAll (state : PathState) (events : List StoreEvent) :
    (state.writeAll events).startsEmpty = state.startsEmpty := by
  induction events generalizing state with
  | nil => rfl
  | cons event rest ih => exact ih _

theorem version_eq (state : PathState) (name : String) :
    state.version name = (state.stores.filter fun event => event.field == name).length := by
  rw [version, List.countP_eq_length_filter, stores, List.filter_reverse, List.length_reverse]

theorem heldAt_zero (state : PathState) (initial : Storage) (numbers : SymbolId → Nat)
    (place : StorageKey) :
    state.heldAt initial numbers place 0 = initial.get place := by
  rw [heldAt, List.take_zero]
  rfl

theorem heldAt_version (state : PathState) (initial : Storage) (numbers : SymbolId → Nat)
    (place : StorageKey) :
    state.heldAt initial numbers place (state.version place.field) =
      (initial.after numbers state.stores).get place := by
  rw [heldAt, version_eq, List.take_length, Storage.get_after_filter]

theorem get_after_writeAll (initial : Storage) (numbers : SymbolId → Nat) (place : StorageKey)
    {others : List StoreEvent}
    (same : (state.writeAll others).version place.field = state.version place.field) :
    (initial.after numbers (state.writeAll others).stores).get place =
      (initial.after numbers state.stores).get place := by
  have none : others.filter (fun event => event.field == place.field) = [] := by
    rw [version_eq, version_eq, stores_writeAll, List.filter_append, List.length_append] at same
    exact List.eq_nil_of_length_eq_zero (by omega)
  rw [← Storage.get_after_filter, ← Storage.get_after_filter _ _ _ state.stores, stores_writeAll,
    List.filter_append, none, List.append_nil]

end PathState

/-! What a path finds in storage. -/

namespace Arena

variable {arena later : Arena} {id : SymbolId} {term : Term}

theorem Extends.term? (keeps : arena.Extends later) (found : arena.term? id = some term) :
    later.term? id = some term := by
  obtain ⟨symbol, stored, same⟩ := Option.map_eq_some_iff.mp found
  exact Option.map_eq_some_iff.mpr ⟨symbol, keeps id symbol stored, same⟩

theorem Extends.const? {value : Nat} (keeps : arena.Extends later)
    (found : arena.const? id = some value) :
    later.const? id = some value :=
  const?_eq_some.mpr (keeps.term? (const?_eq_some.mp found))

theorem term?_intern (arena : Arena) (term : Term) (ty : Ty) (whole : arena.fold term ty = term) :
    (arena.intern term ty).2.term? (arena.intern term ty).1 = some term := by
  rw [Arena.term?, getElem?_intern, whole]
  rfl

end Arena

namespace Explorer

variable {arena later : Arena} {state : PathState} {initial : Storage} {numbers : SymbolId → Nat}
  {field : String} {ty : Ty}

theorem initial_extends (arena : Arena) (state : PathState) (field : String) (ty : Ty)
    (key : Option SymbolId) (version : Nat) :
    arena.Extends (Explorer.initial arena state field ty key version).2 := by
  unfold Explorer.initial
  split
  · exact arena.intern_extends _ _
  · exact arena.intern_extends _ _

theorem entryValue_extends (arena : Arena) (state : PathState) (field : String) (ty : Ty)
    (key : SymbolId) (events : List StoreEvent) :
    arena.Extends (entryValue arena state field ty key events).2 := by
  induction events with
  | nil => exact initial_extends _ _ _ _ _ _
  | cons event rest ih =>
    unfold entryValue
    split
    · exact ih
    · split
      · exact ih
      · split
        · exact .refl arena
        · split
          · split
            · exact ih
            · exact initial_extends _ _ _ _ _ _
          · exact initial_extends _ _ _ _ _ _

theorem numbers_initial (reading : state.Reading later initial numbers)
    (zero : state.startsEmpty = true → ∀ place, initial.get place = 0) {key : Option SymbolId}
    {version : Nat} (known : version ≤ state.version field)
    (keeps : (Explorer.initial arena state field ty key version).2.Extends later) :
    numbers (Explorer.initial arena state field ty key version).1 =
      state.heldAt initial numbers ⟨field, key.map numbers⟩ version := by
  unfold Explorer.initial at keeps ⊢
  split
  · rename_i empty
    rw [if_pos empty] at keeps
    obtain ⟨starts, first⟩ := Bool.and_eq_true_iff.mp empty
    have stored := keeps.term? (arena.term?_intern (.const (ty.wrap 0)) ty rfl)
    rw [eq_of_beq first, PathState.heldAt_zero, zero starts]
    exact (reading.constants _ _ (Arena.const?_eq_some.mpr stored)).trans (Ty.wrap_zero ty)
  · rename_i open?
    rw [if_neg open?] at keeps
    exact reading.contents _ _ _ _ (keeps.term? (arena.term?_intern _ _ rfl)) known

/-- The search for an entry goes past writes to other places only, so what it has gone past is of no
account. -/
theorem numbers_entryValue (reading : state.Reading later initial numbers)
    (zero : state.startsEmpty = true → ∀ place, initial.get place = 0) {key : SymbolId}
    {events : List StoreEvent}
    (same : (initial.after numbers events.reverse).get ⟨field, some (numbers key)⟩ =
      (initial.after numbers state.stores).get ⟨field, some (numbers key)⟩)
    (keeps : (entryValue arena state field ty key events).2.Extends later) :
    numbers (entryValue arena state field ty key events).1 =
      (initial.after numbers state.stores).get ⟨field, some (numbers key)⟩ := by
  have constant {id : SymbolId} {value : Nat} (found : arena.const? id = some value) :
      numbers id = value :=
    reading.constants _ _
      (((entryValue_extends arena state field ty key events).trans keeps).const? found)
  induction events with
  | nil =>
    rw [entryValue] at keeps ⊢
    rw [numbers_initial reading zero (Nat.zero_le _) keeps, PathState.heldAt_zero]
    exact same
  | cons event rest ih =>
    rw [List.reverse_cons] at same
    have past (apart : event.place numbers ≠ ⟨field, some (numbers key)⟩) :
        (initial.after numbers rest.reverse).get ⟨field, some (numbers key)⟩ =
          (initial.after numbers state.stores).get ⟨field, some (numbers key)⟩ :=
      (Storage.get_after_concat_other apart).symm.trans same
    have unsure
      (keeps : (Explorer.initial arena state field ty (some key) (state.version field)).2.Extends
        later) :
        numbers (Explorer.initial arena state field ty (some key) (state.version field)).1 =
          (initial.after numbers state.stores).get ⟨field, some (numbers key)⟩ :=
      (numbers_initial reading zero (Nat.le_refl _) keeps).trans
        (state.heldAt_version initial numbers ⟨field, some _⟩)
    unfold entryValue at keeps ⊢
    split
    · rename_i other
      rw [if_pos other] at keeps
      exact ih (past fun goes => bne_iff_ne.mp other (congrArg StorageKey.field goes)) keeps
    · rename_i here
      rw [if_neg here] at keeps
      have here : event.field = field := by simpa using here
      cases written : event.key with
      | none =>
        simp only [written] at keeps ⊢
        refine ih (past fun goes => ?_) keeps
        simp [StoreEvent.place, written] at goes
      | some place =>
        simp only [written] at keeps ⊢
        split
        · rename_i equal
          have goes : event.place numbers = ⟨field, some (numbers key)⟩ := by
            rw [StoreEvent.place, here, written, ← eq_of_beq equal]
            rfl
          exact (Storage.get_after_concat_same goes).symm.trans same
        · rename_i different
          rw [if_neg different] at keeps
          split
          · rename_i left right found also
            simp only [found, also] at keeps
            split
            · rename_i unequal
              rw [if_pos unequal] at keeps
              refine ih (past fun goes => ?_) keeps
              rw [StoreEvent.place, written, StorageKey.mk.injEq, Option.map_some,
                Option.some.injEq, constant found, constant also] at goes
              exact bne_iff_ne.mp unequal goes.2
            · rename_i equal
              rw [if_neg equal] at keeps
              exact unsure keeps
          · rename_i undecided
            split at keeps
            · rename_i found also
              exact absurd also (undecided _ _ found)
            · exact unsure keeps

def isScalarWrite (field : String) (event : StoreEvent) : Bool :=
  event.field == field && event.key.isNone

theorem place_eq_scalar_iff (numbers : SymbolId → Nat) (field : String) (event : StoreEvent) :
    event.place numbers = ⟨field, none⟩ ↔ isScalarWrite field event = true := by
  simp [StoreEvent.place, isScalarWrite]

theorem get_of_written {event : StoreEvent}
    (last : state.writes.find? (isScalarWrite field) = some event) :
    (initial.after numbers state.stores).get ⟨field, none⟩ = numbers event.value := by
  obtain ⟨here, later, earlier, writes, apart⟩ := List.find?_eq_some_iff_append.mp last
  rw [PathState.stores, writes, List.reverse_append, List.reverse_cons,
    Storage.get_after_append_other, Storage.get_after_concat_same
      ((place_eq_scalar_iff numbers field event).mpr here)]
  intro other member goes
  have passed := apart other (List.mem_reverse.mp member)
  simp [(place_eq_scalar_iff numbers field other).mp goes] at passed

theorem get_of_unwritten (unwritten : state.writes.find? (isScalarWrite field) = none) :
    (initial.after numbers state.stores).get ⟨field, none⟩ = initial.get ⟨field, none⟩ := by
  have apart := List.find?_eq_none.mp unwritten
  have elsewhere : ∀ event ∈ state.stores, event.place numbers ≠ ⟨field, none⟩ :=
    fun event member goes =>
    apart event (List.mem_reverse.mp member) ((place_eq_scalar_iff numbers field event).mp goes)
  rw [← List.nil_append state.stores, Storage.get_after_append_other elsewhere]
  rfl

theorem fieldValue_reads {explorer : Explorer} {declared : Field}
    (found : explorer.contract.field? field = some declared) (arena : Arena) (state : PathState)
    (key : Option SymbolId) :
    ∃ id later, explorer.fieldValue arena state field key = .ok (id, later) ∧
      ∀ initial numbers, (state.startsEmpty = true → ∀ place, initial.get place = 0) →
        state.Reading later initial numbers →
          numbers id = (initial.after numbers state.stores).get ⟨field, key.map numbers⟩ := by
  unfold fieldValue
  rw [found]
  cases key with
  | some key =>
    exact ⟨_, _, rfl, fun initial numbers zero reading =>
      numbers_entryValue reading zero rfl (.refl _)⟩
  | none =>
    simp only [← isScalarWrite.eq_def]
    cases last : state.writes.find? (isScalarWrite field) with
    | some event => exact ⟨_, _, rfl, fun initial numbers _ _ => (get_of_written last).symm⟩
    | none =>
      refine ⟨(Explorer.initial arena state field _ none 0).1,
        (Explorer.initial arena state field _ none 0).2, rfl,
        fun initial numbers zero reading => ?_⟩
      rw [numbers_initial reading zero (Nat.zero_le _) (.refl _), PathState.heldAt_zero]
      exact (get_of_unwritten last).symm

/-! What a function that only reads is named by. -/

theorem callValue_of_isOpaque {explorer : Explorer} {name : String}
    (onlyReads : explorer.contract.isOpaque explorer.summaries name = true) :
    ∃ function summary, explorer.contract.function? name = some function ∧
      explorer.summaries.get? explorer.contract.name name = some summary ∧
        ∀ arena (state : PathState) args, ∃ id later, explorer.callValue arena state name args =
          .ok (id, later) := by
  unfold Contract.isOpaque at onlyReads
  split at onlyReads
  · rename_i function summary found known
    simp only [Bool.and_eq_true] at onlyReads
    obtain ⟨ty, returns⟩ := Option.isSome_iff_exists.mp onlyReads.1.1
    refine ⟨function, summary, found, known, fun arena state args => ?_⟩
    simp only [callValue, found, Option.bind_some, returns]
    exact ⟨_, _, rfl⟩
  · simp at onlyReads

theorem versions_of_same_call {explorer : Explorer} {name : String} {summary : Summary}
    (known : explorer.summaries.get? explorer.contract.name name = some summary)
    {arena further later last whole : Arena} {state other : PathState}
    {args values : List SymbolId} {id : SymbolId}
    (first : explorer.callValue arena state name args = .ok (id, later))
    (second : explorer.callValue further other name values = .ok (id, last))
    (keeps : later.Extends whole) (also : last.Extends whole) :
    ∀ field ∈ summary.effect.reads, other.version field = state.version field := by
  have stored {arena later : Arena} {state : PathState} {args : List SymbolId}
      (called : explorer.callValue arena state name args = .ok (id, later))
      (keeps : later.Extends whole) :
      whole.term? id =
        some (.call name args
          (summary.effect.reads.map fun field => (field, state.version field))) := by
    unfold callValue at called
    split at called
    · simp at called
    · simp only [known, Except.ok.injEq] at called
      rw [show id = _ from (congrArg Prod.fst called).symm]
      rw [show later = _ from (congrArg Prod.snd called).symm] at keeps
      exact keeps.term? (arena.term?_intern _ _ rfl)
  have same := (stored second also).symm.trans (stored first keeps)
  intro field listed
  exact (Prod.mk.inj
    (List.map_inj_left.mp (Term.call.inj (Option.some.inj same)).2.2 field listed)).2

end Explorer

/-- Whether some run of a function of a contract reads a field, by itself or in a function that it
calls. -/
def Function.MayRead (contract : Contract) (function : Function) (field : String) : Prop :=
  ∃ (inputs : Inputs) (limits : RunLimits) (frame : Frame) (state : Running) (dest : ValueId)
    (key : Option ValueId),
    function.params.length = inputs.args.length ∧
      function.frame (function.entryCells inputs.args) = .ok frame ∧
      Running.Reaches (inputs.setting contract limits)
        ⟨frame, [], Effects.start inputs.storage⟩ state ∧
        state.Runs (.loadField dest field key)

namespace ContractSet

/-- The summary of a function lists all fields that its runs read. -/
theorem mem_reads_of_mayRead {text : String} {contract : Contract}
    (member : contract ∈ (ofText text).contracts) {name : String} {function : Function}
    (found : contract.function? name = some function) {field : String}
    (reads : function.MayRead contract field) {summary : Summary}
    (known : (Summaries.ofSet (ofText text)).1.get? contract.name name = some summary) :
    field ∈ summary.effect.reads := by
  obtain ⟨inputs, limits, frame, state, dest, key, count, framed, reaches, runs⟩ := reads
  obtain ⟨declared, code⟩ := typed_of_ofText member
  have code : (inputs.setting contract limits).contract.Typed declared := code
  obtain ⟨listed, named⟩ := Contract.mem_of_function? found
  have summarized := summarized member
  have start := code.of_frame found count framed inputs.storage
  have linked := Running.linked_start frame (Effects.start inputs.storage)
  have typed := reaches.typed code False.elim start
  have stands := start.stands _
    (List.getLast_mem (Running.posts_ne_nil ⟨frame, [], Effects.start inputs.storage⟩))
  obtain ⟨there, same⟩ := stands.along (reaches.outermost code start linked)
  have outer : state.outermost.function = function := same.trans (Function.frame_eq_ok framed).1
  have block : state.outermost.block ∈ function.blocks := outer ▸ List.mem_of_getElem? there.block
  have additive := Effect.additive_contains Effect.reads rfl (fun _ _ => rfl) field
  have own (id : BlockId) :
      (state.frame.function.effectAt id (.loadField dest field key)).reads.contains field =
        true := by
    simp [Function.effectAt]
  rw [← named] at known
  suffices has : summary.effect.reads.contains field = true from List.contains_iff_mem.mp has
  rcases runs.at_outermost typed (reaches.linked code False.elim start linked) summarized additive
    (own _) with
    ⟨_, _, here⟩ | ⟨upper, _, _, _, _, calls, other, also, holds⟩
  · refine summarized.own function listed summary known _ additive
      ((Function.has_localEffect additive).mpr ?_)
    exact ⟨_, Function.mem_instructions block
      (List.mem_of_getElem? here), by simp [Function.effectAt]⟩
  · have callee :=
      Function.mem_callees (Function.mem_instructions block (List.mem_of_getElem? calls))
    exact summarized.called function listed summary known _ callee other also _ additive holds

end ContractSet

namespace Explorer

theorem state_of_start {arena : Arena} {function : Function} {path : Path}
    (started : (start arena function).1 = .ok path) :
    path.state = PathState.start (function.kind == .init) := by
  simp only [start] at started
  obtain ⟨frame, _, same⟩ := chain_eq_ok.mp started
  exact congrArg Path.state (Except.ok.inj same).symm

/-- Whatever a path has written since its start, a field that is read, or an entry of it, stands for
what it holds after the same writes to a storage that is empty where the function deploys its
contract. And a call that only reads is the same unknown in two states of a path only if all fields
that the called function may read hold the same in both. -/
theorem path_reads_storage (explorer : Explorer) {arena : Arena} {function : Function} {path : Path}
    (started : (start arena function).1 = .ok path) (events : List StoreEvent) :
    (∀ field declared, explorer.contract.field? field = some declared →
      ∀ (known : Arena) (key : Option SymbolId), ∃ id later, explorer.fieldValue known
        (path.state.writeAll events) field key = .ok (id, later) ∧
        ∀ initial numbers, (function.kind = .init → ∀ place, Storage.get initial place = 0) →
          (path.state.writeAll events).Reading later initial numbers →
            numbers id = (initial.after numbers events).get ⟨field, key.map numbers⟩) ∧
    ∀ text, explorer.contract ∈ (ContractSet.ofText text).contracts →
      explorer.summaries = (Summaries.ofSet (ContractSet.ofText text)).1 →
        ∀ name, explorer.contract.isOpaque explorer.summaries name = true →
        ∃ callee, explorer.contract.function? name = some callee ∧
        ∀ others known further args values,
          ∃ id later again last,
            explorer.callValue known (path.state.writeAll events) name args = .ok (id, later) ∧
            explorer.callValue further (path.state.writeAll (events ++ others)) name values =
              .ok (again, last) ∧
            ∀ whole, later.Extends whole → last.Extends whole → again = id →
              ∀ field, callee.MayRead explorer.contract field → ∀ initial numbers key,
                (Storage.after initial numbers (events ++ others)).get ⟨field, key⟩ =
                  (Storage.after initial numbers events).get ⟨field, key⟩ := by
  have state := state_of_start started
  have stores (events : List StoreEvent) : (path.state.writeAll events).stores = events := by
    rw [PathState.stores_writeAll, state]
    rfl
  constructor
  · intro field declared found known key
    obtain ⟨id, later, read, stands⟩ :=
      fieldValue_reads found known (path.state.writeAll events) key
    refine ⟨id, later, read, fun initial numbers zero reading => ?_⟩
    rw [← stores events]
    refine stands initial numbers (fun empty => zero ?_) reading
    rw [PathState.startsEmpty_writeAll, state] at empty
    exact eq_of_beq empty
  · intro text member summaries name onlyReads
    obtain ⟨callee, summary, found, known, called⟩ := callValue_of_isOpaque onlyReads
    refine ⟨callee, found, fun others arena further args values => ?_⟩
    obtain ⟨id, later, first⟩ := called arena (path.state.writeAll events) args
    obtain ⟨again, last, second⟩ := called further (path.state.writeAll (events ++ others)) values
    refine ⟨id, later, again, last, first, second, ?_⟩
    rintro whole keeps also rfl field reads initial numbers key
    have listed := ContractSet.mem_reads_of_mayRead member found reads (summaries ▸ known)
    have unwritten := versions_of_same_call known first second keeps also field listed
    have split : path.state.writeAll (events ++ others) =
        (path.state.writeAll events).writeAll others :=
      List.foldl_append
    have holds := PathState.get_after_writeAll initial numbers ⟨field, key⟩ (split ▸ unwritten)
    rwa [← split, stores, stores] at holds

/-- An entry whose key may be one that was written stands for the written value where the keys are
the same number, and a write to a field that a function does not read leaves its calls the same. -/
theorem path_reads_storage_of_put :
    let text :=
      "contract A \x7b a: u8 m: map<u8, u8> get(k: u8) -> u8 \x7b return self.m[k] \x7d put(k: u8, v: u8) \x7b self.m[k] = v \x7d \x7d"
    let numbers : SymbolId → Nat := fun _ => 5
    let put : StoreEvent := ⟨"m", some 0, 1⟩
    let other : StoreEvent := ⟨"a", none, 1⟩
    ∃ contract ∈ (ContractSet.ofText text).contracts, ∃ function, contract.function? "put" =
      some function ∧
      ∃ path, (start Arena.empty function).1 = .ok path ∧
        let explorer : Explorer :=
          ⟨contract, (Summaries.ofSet (ContractSet.ofText text)).1, .standard⟩
        ∃ id known, explorer.fieldValue (start Arena.empty function).2
        (path.state.writeAll [put]) "m" (some 1) =
            .ok (id, known) ∧
          (path.state.writeAll [put]).Reading known [] numbers ∧
          numbers id = (Storage.after [] numbers [put]).get ⟨"m", some 5⟩ ∧
          ∃ call further last, explorer.callValue known (path.state.writeAll [put]) "get" [0] =
            .ok (call, further) ∧
            explorer.callValue further (path.state.writeAll [put, other]) "get" [0] =
              .ok (call, last) ∧
            (Storage.after [] numbers [put, other]).get ⟨"m", some 5⟩ =
              (Storage.after [] numbers [put]).get ⟨"m", some 5⟩ := by
  intro text numbers put other
  let explorerOf (contract : Contract) : Explorer :=
    ⟨contract, (Summaries.ofSet (ContractSet.ofText text)).1, .standard⟩
  let inputs : Inputs := ⟨[5], .zero, [], true⟩
  let params : List Symbol := [⟨.param 0, .uint 8⟩, ⟨.param 1, .uint 8⟩]
  let symbols : List Symbol := params ++ [⟨.field "m" (some 1) 1, .uint 8⟩]
  let called : List Symbol := symbols ++ [⟨.call "get" [0] [("m", 1)], .uint 8⟩]
  let load (contract : Contract) (getter : Function) : Option (Frame × Running) := do
    let frame ← (getter.frame (getter.entryCells inputs.args)).toOption
    let reached ← Running.follow (inputs.setting contract .standard) 1 ⟨frame, [], Effects.start []⟩
    return (frame, reached.2)
  have puts : ∃ contract ∈ (ContractSet.ofText text).contracts,
    ∃ function ∈ contract.function? "put",
      (contract.field? "m").isSome ∧ (start Arena.empty function).1.toOption.isSome ∧
        function.kind ≠ .init ∧
        (start Arena.empty function).2 = ⟨params.toArray⟩ := by
    decide +kernel
  have answers : ∀ contract ∈ (ContractSet.ofText text).contracts,
      ((explorerOf contract).fieldValue ⟨params.toArray⟩
        ((PathState.start false).writeAll [put]) "m" (some 1)).toOption =
          some (2, ⟨symbols.toArray⟩) ∧
        ((explorerOf contract).callValue ⟨symbols.toArray⟩
          ((PathState.start false).writeAll [put]) "get" [0]).toOption =
          some (3, ⟨called.toArray⟩) ∧
        ((explorerOf contract).callValue ⟨called.toArray⟩
          ((PathState.start false).writeAll [put, other]) "get" [0]).toOption =
            some (3, ⟨called.toArray⟩) := by
    decide +kernel
  have gets : ∀ contract ∈ (ContractSet.ofText text).contracts,
    contract.isOpaque (explorerOf contract).summaries "get" ∧
      ∃ getter ∈ contract.function? "get", getter.params.length = inputs.args.length ∧
        ∃ reached ∈ load contract getter,
          reached.2.frame.pending.head?.map Located.node = some (.loadField 1 "m" (some 0)) := by
    decide +kernel
  obtain ⟨contract, member, function, found, declared, started, deployed, arena⟩ := puts
  obtain ⟨field, declared⟩ := Option.isSome_iff_exists.mp declared
  obtain ⟨path, started⟩ := Option.isSome_iff_exists.mp started
  obtain ⟨read, first, second⟩ := answers contract member
  obtain ⟨onlyReads, getter, named, count, ⟨_, _⟩, followed, loads⟩ := gets contract member
  simp only [load, Option.mem_def, bind, Option.bind_eq_some_iff, pure, Option.some.injEq,
    Prod.mk.injEq] at followed
  obtain ⟨frame, framed, ⟨_, reached⟩, followed, rfl, rfl⟩ := followed
  have started := Running.toOption_eq_some.mp started
  have state : path.state = PathState.start false := by
    rw [state_of_start started, beq_eq_false_iff_ne.mpr deployed]
  rw [← state] at read first second
  rw [← arena] at read
  have mayRead : getter.MayRead contract "m" :=
    ⟨inputs, .standard, frame, reached, 1, some 0, count, Running.toOption_eq_some.mp framed,
      (Running.shows_of_follow followed).reaches, Running.runs_of_head? loads⟩
  have reading : (path.state.writeAll [put]).Reading ⟨symbols.toArray⟩ [] numbers := by
    have terms {id : SymbolId} {term : Term}
        (found : Arena.term? ⟨symbols.toArray⟩ id = some term) :
        term = .param 0 ∨ term = .param 1 ∨ term = .field "m" (some 1) 1 := by
      obtain ⟨symbol, stored, rfl⟩ := Option.map_eq_some_iff.mp found
      have listed : symbol ∈ symbols :=
        List.mem_of_getElem? (List.getElem?_toArray.symm.trans stored)
      simp only [symbols, params, List.mem_append, List.mem_cons, List.not_mem_nil,
        or_false] at listed
      rcases listed with (rfl | rfl) | rfl <;> simp
    rw [state]
    constructor
    · intro id value constant
      rcases terms (Arena.const?_eq_some.mp constant) with same | same | same <;> cases same
    · intro id name key version unknown _
      rcases terms unknown with same | same | same <;> cases same
      decide
  obtain ⟨reads, calls⟩ := path_reads_storage (explorerOf contract) started [put]
  have read := Running.toOption_eq_some.mp read
  obtain ⟨id, later, same, stands⟩ :=
    reads "m" field declared (start Arena.empty function).2 (some 1)
  obtain ⟨rfl, rfl⟩ := Prod.mk.inj (Except.ok.inj (read.symm.trans same))
  have first := Running.toOption_eq_some.mp first
  have second := Running.toOption_eq_some.mp second
  obtain ⟨callee, known, agree⟩ := calls text member rfl "get" onlyReads
  obtain rfl := Option.some.inj (named.symm.trans known)
  obtain ⟨call, later, again, last, one, two, agrees⟩ :=
    agree [other] ⟨symbols.toArray⟩ ⟨called.toArray⟩ [0] [0]
  obtain ⟨rfl, rfl⟩ := Prod.mk.inj (Except.ok.inj (first.symm.trans one))
  obtain ⟨rfl, rfl⟩ := Prod.mk.inj (Except.ok.inj (second.symm.trans two))
  exact ⟨contract, member, function, found, path, started, _, _, read, reading,
    stands [] numbers (fun init => absurd init deployed) reading, _, _, _, first, second,
    agrees _ (.refl _) (.refl _) rfl "m" mayRead [] numbers (some 5)⟩

end Explorer

end Covenant
