import Covenant.Proofs.Code.Search
import Covenant.Scan.Finding

/-!
What becomes of the value of a field. The search that looks ahead from a store comes to each block
once, and still tells what holds on all paths: a value is taken for dead exactly if no path shows it
and some path overwrites it.
-/

namespace Covenant

namespace Finding

def Shows (function : Function) (field : String) (place : Position) : Prop :=
  ∃ block, function.block? place.block = some block ∧
    (fateIn field (block.instructions.drop place.index) = .observed ∨
      fateIn field (block.instructions.drop place.index) = .kept ∧ ∃ value,
        block.terminator.node = .ret value)

def Overwrites (function : Function) (field : String) (place : Position) : Prop :=
  ∃ block, function.block? place.block = some block ∧
    fateIn field (block.instructions.drop place.index) = .overwritten

def Keeps (function : Function) (field : String) (place next : Position) : Prop :=
  ∃ block, function.block? place.block = some block ∧
    fateIn field (block.instructions.drop place.index) = .kept ∧
    ∃ id ∈ block.terminator.node.successors, next = ⟨id, 0⟩

abbrev KeepsTo (function : Function) (field : String) : Position → Position → Prop :=
  Relation.ReflTransGen (Keeps function field)

def Unseen (function : Function) (field : String) (place : Position) : Prop :=
  ∀ later, KeepsTo function field place later → ¬ Shows function field later

def Dies (function : Function) (field : String) (place : Position) : Prop :=
  Unseen function field place ∧ ∃ later, KeepsTo function field place later ∧
    Overwrites function field later

variable {function : Function} {field : String}

/-! Blocks on the stack. -/

theorem mem_visited_pushBlocks (blocks visited : List BlockId) (stack : List Position)
    (id : BlockId) :
    id ∈ (pushBlocks blocks visited stack).1 ↔ id ∈ visited ∨ id ∈ blocks := by
  induction blocks generalizing visited stack with
  | nil => simp [pushBlocks]
  | cons first rest ih =>
    simp only [pushBlocks, List.contains_iff_mem]
    split
    · rename_i met
      rw [ih, List.mem_cons]
      constructor
      · exact Or.imp_right .inr
      · rintro (known | rfl | listed)
        · exact .inl known
        · exact .inl met
        · exact .inr listed
    · rw [ih, List.mem_cons, List.mem_cons, or_assoc, or_left_comm]

theorem mem_stack_pushBlocks (blocks visited : List BlockId) (stack : List Position)
    (place : Position) :
    place ∈ (pushBlocks blocks visited stack).2 ↔ place ∈ stack ∨ ∃ id ∈ blocks, id ∉ visited ∧
      place = ⟨id, 0⟩ := by
  induction blocks generalizing visited stack with
  | nil => simp [pushBlocks]
  | cons first rest ih =>
    simp only [pushBlocks, List.contains_iff_mem]
    split
    · rename_i met
      rw [ih]
      simp [met]
    · rename_i unmet
      rw [ih]
      constructor
      · rintro (known | ⟨id, listed, new, rfl⟩)
        · rcases List.mem_cons.mp known with rfl | known
          · exact .inr ⟨first, List.mem_cons_self, unmet, rfl⟩
          · exact .inl known
        · exact .inr ⟨id, List.mem_cons_of_mem first listed, fun met =>
            new (List.mem_cons_of_mem first met), rfl⟩
      · rintro (known | ⟨id, listed, new, rfl⟩)
        · exact .inl (List.mem_cons_of_mem _ known)
        · by_cases same : id = first
          · exact .inl (same ▸ List.mem_cons_self)
          · exact .inr ⟨id, (List.mem_cons.mp listed).resolve_left same, by simp [same, new], rfl⟩

/-! What the search settles: on the stack are the places that it has come to but not looked at yet.
-/

structure Settled (function : Function) (field : String) (visited : List BlockId)
    (overwritten : Bool) (place : Position) :
    Prop where
  hidden : ¬ Shows function field place
  counted : Overwrites function field place → overwritten = true
  onwards : ∀ next, Keeps function field place next → ∃ id ∈ visited, next = ⟨id, 0⟩

structure Searched (function : Function) (field : String) (root : Position)
    (visited : List BlockId) (overwritten : Bool) (stack : List Position) : Prop where
  reached : ∀ place ∈ stack, KeepsTo function field root place
  found : overwritten = true → ∃ place, KeepsTo function field root place ∧
    Overwrites function field place
  begun : root ∈ stack ∨ Settled function field visited overwritten root
  settled : ∀ id ∈ visited, ⟨id, 0⟩ ∈ stack ∨ Settled function field visited overwritten ⟨id, 0⟩

variable {root place : Position} {visited more : List BlockId} {overwritten also : Bool}
  {stack rest : List Position}

theorem Settled.mono (settled : Settled function field visited overwritten place)
    (keeps : ∀ id ∈ visited, id ∈ more) (counts : overwritten = true → also = true) :
    Settled function field more also place where
  hidden := settled.hidden
  counted overwrites := counts (settled.counted overwrites)
  onwards next leads := by
    obtain ⟨id, known, same⟩ := settled.onwards next leads
    exact ⟨id, keeps id known, same⟩

namespace Searched

theorem start (function : Function) (field : String) (root : Position) :
    Searched function field root [] false [root] where
  reached := fun _ listed => List.mem_singleton.mp listed ▸ .refl
  found := nofun
  begun := .inl List.mem_cons_self
  settled := nofun

theorem advance (searched : Searched function field root visited overwritten (place :: rest))
    (keeps : ∀ id ∈ visited, id ∈ more) (counts : overwritten = true → also = true)
    (waiting : ∀ other ∈ rest, other ∈ stack) (new : ∀ id ∈ more, id ∉ visited → ⟨id, 0⟩ ∈ stack)
    (reached : ∀ other ∈ stack, KeepsTo function field root other)
    (found : also = true → ∃ place, KeepsTo function field root place ∧
      Overwrites function field place)
    (done : Settled function field more also place) :
    Searched function field root more also stack := by
  have still {other : Position}
      (before : other ∈ place :: rest ∨ Settled function field visited overwritten other) :
      other ∈ stack ∨ Settled function field more also other := by
    rcases before with listed | settled
    · rcases List.mem_cons.mp listed with rfl | listed
      · exact .inr done
      · exact .inl (waiting other listed)
    · exact .inr (settled.mono keeps counts)
  refine ⟨reached, found, still searched.begun, fun id met => ?_⟩
  by_cases known : id ∈ visited
  · exact still (searched.settled id known)
  · exact .inl (new id met known)

theorem pop (searched : Searched function field root visited overwritten (place :: rest))
    (counts : overwritten = true → also = true)
    (found : also = true → ∃ place, KeepsTo function field root place ∧
      Overwrites function field place)
    (done : Settled function field visited also place) :
    Searched function field root visited also rest :=
  searched.advance (fun _ known => known) counts (fun _ listed => listed)
    (fun _ known new => absurd known new) (List.forall_mem_cons.mp searched.reached).2 found done

/-- A place at which the value is kept is settled by visiting the blocks that it leads to. -/
theorem push (searched : Searched function field root visited overwritten (place :: rest))
    {block : BasicBlock} (there : function.block? place.block = some block)
    (kept : fateIn field (block.instructions.drop place.index) = .kept)
    (stays : ∀ value, block.terminator.node ≠ .ret value) :
    Searched function field root (pushBlocks block.terminator.node.successors visited rest).1
      overwritten (pushBlocks block.terminator.node.successors visited rest).2 := by
  obtain ⟨here, later⟩ := List.forall_mem_cons.mp searched.reached
  refine searched.advance (fun id known => ?_) (fun counted => counted) (fun other listed => ?_)
    (fun id met new => ?_) (fun other listed => ?_) searched.found ⟨?_, ?_, ?_⟩
  · exact (mem_visited_pushBlocks _ _ _ id).mpr (.inl known)
  · exact (mem_stack_pushBlocks _ _ _ other).mpr (.inl listed)
  · have leads := ((mem_visited_pushBlocks _ _ _ id).mp met).resolve_left new
    exact (mem_stack_pushBlocks _ _ _ _).mpr (.inr ⟨id, leads, new, rfl⟩)
  · rcases (mem_stack_pushBlocks _ _ _ other).mp listed with before | ⟨id, leads, _, rfl⟩
    · exact later other before
    · exact here.tail ⟨block, there, kept, id, leads, rfl⟩
  · rintro ⟨_, again, shows⟩
    obtain rfl := Option.some.inj (there.symm.trans again)
    simp [kept, stays] at shows
  · rintro ⟨_, again, overwrites⟩
    obtain rfl := Option.some.inj (there.symm.trans again)
    simp [kept] at overwrites
  · rintro _ ⟨_, again, _, id, leads, rfl⟩
    obtain rfl := Option.some.inj (there.symm.trans again)
    exact ⟨id, (mem_visited_pushBlocks _ _ _ id).mpr (.inr leads), rfl⟩

theorem settled_of_keepsTo (searched : Searched function field root visited overwritten [])
    (keepsTo : KeepsTo function field root place) :
    Settled function field visited overwritten place := by
  induction keepsTo with
  | refl => exact searched.begun.resolve_left List.not_mem_nil
  | tail _ leads ih =>
    obtain ⟨id, known, rfl⟩ := ih.onwards _ leads
    exact (searched.settled id known).resolve_left List.not_mem_nil

theorem dies_iff (searched : Searched function field root visited overwritten []) :
    overwritten = true ↔ Dies function field root := by
  refine ⟨fun counted =>
    ⟨fun later keepsTo => (searched.settled_of_keepsTo keepsTo).hidden, searched.found counted⟩, ?_⟩
  rintro ⟨_, later, keepsTo, overwrites⟩
  exact (searched.settled_of_keepsTo keepsTo).counted overwrites

end Searched

theorem Searched.of_isDead? {fuel : Nat} {result : Bool}
    (searched : Searched function field root visited overwritten stack)
    (ends : isDead? function field fuel visited overwritten stack = some result) :
    result = true ↔ Dies function field root := by
  induction fuel generalizing visited overwritten stack with
  | zero =>
    cases stack with
    | nil => exact Option.some.inj ends ▸ searched.dies_iff
    | cons place rest => simp [isDead?] at ends
  | succ fuel ih =>
    cases stack with
    | nil => exact Option.some.inj ends ▸ searched.dies_iff
    | cons place rest =>
      have here := searched.reached place List.mem_cons_self
      -- the search stops at once where the value is shown
      have shown (shows : Shows function field place) (found : false = result) :
          result = true ↔ Dies function field root := by
        subst found
        exact iff_of_false Bool.false_ne_true fun dies => dies.1 place here shows
      unfold isDead? at ends
      cases there : function.block? place.block with
      | none =>
        simp only [there] at ends
        refine ih (searched.pop (fun counted => counted) searched.found ⟨?_, ?_, ?_⟩) ends
        all_goals simp [Shows, Overwrites, Keeps, there]
      | some block =>
        simp only [there] at ends
        cases fate : fateIn field (block.instructions.drop place.index) with
        | observed =>
          simp only [fate] at ends
          exact shown ⟨block, there, .inl fate⟩ (Option.some.inj ends)
        | overwritten =>
          simp only [fate] at ends
          have overwrites : Overwrites function field place := ⟨block, there, fate⟩
          refine ih (searched.pop (fun _ => rfl) (fun _ => ⟨place, here, overwrites⟩)
            ⟨?_, fun _ => rfl, ?_⟩) ends
          all_goals simp [Shows, Keeps, there, fate]
        | kept =>
          simp only [fate] at ends
          split at ends
          · rename_i value node
            exact shown ⟨block, there, .inr ⟨fate, value, node⟩⟩ (Option.some.inj ends)
          · rename_i message node
            refine ih (searched.pop (fun counted => counted) searched.found ⟨?_, ?_, ?_⟩) ends
            all_goals simp [Shows, Overwrites, Keeps, there, fate, node, Terminator.successors]
          · rename_i returns _
            exact ih (searched.push there fate returns) ends

/-! The search ends: each step takes a place off the stack, and a block is put there once. -/

def targets (function : Function) : List BlockId :=
  function.blocks.flatMap fun block => block.terminator.node.successors

theorem length_targets_le (function : Function) :
    (targets function).length ≤ 2 * function.blocks.length := by
  unfold targets
  induction function.blocks with
  | nil => exact Nat.le_refl _
  | cons block rest ih =>
    have few : block.terminator.node.successors.length ≤ 2 := by
      cases block.terminator.node <;> simp [Terminator.successors]
    rw [List.flatMap_cons, List.length_append, List.length_cons]
    omega

theorem work_pushBlocks {blocks names : List BlockId} (inside : ∀ id ∈ blocks, id ∈ names)
    (visited : List BlockId) (stack : List Position) :
    (pushBlocks blocks visited stack).2.length + Reach.unmetCost (fun _ => 1) names
    (pushBlocks blocks visited stack).1 ≤
      stack.length + Reach.unmetCost (fun _ => 1) names visited := by
  induction blocks generalizing visited stack with
  | nil => exact Nat.le_refl _
  | cons first rest ih =>
    obtain ⟨here, others⟩ := List.forall_mem_cons.mp inside
    unfold pushBlocks
    split
    · exact ih others visited stack
    · rename_i unmet
      have fewer := Reach.unmetCost_cons_le (fun _ => 1) here
        (show first ∉ visited by simpa using unmet)
      have later := ih others (first :: visited) (⟨first, 0⟩ :: stack)
      rw [List.length_cons] at later
      omega

theorem isDead?_isSome {fuel : Nat}
    (enough : stack.length + Reach.unmetCost (fun _ => 1) (targets function) visited ≤ fuel) :
    (isDead? function field fuel visited overwritten stack).isSome = true := by
  induction fuel generalizing visited overwritten stack with
  | zero =>
    obtain rfl : stack = [] := List.eq_nil_of_length_eq_zero (by omega)
    rfl
  | succ fuel ih =>
    cases stack with
    | nil => rfl
    | cons place rest =>
      rw [List.length_cons] at enough
      unfold isDead?
      cases there : function.block? place.block with
      | none => exact ih (by omega)
      | some block =>
        dsimp only
        cases fateIn field (block.instructions.drop place.index) with
        | observed => rfl
        | overwritten => exact ih (by omega)
        | kept =>
          have named : ∀ id ∈ block.terminator.node.successors, id ∈ targets function :=
            fun id leads =>
            List.mem_flatMap.mpr ⟨block, List.mem_of_getElem? there, leads⟩
          have less := work_pushBlocks named visited rest
          dsimp only
          split
          · rfl
          · exact ih (by omega)
          · exact ih (by omega)

theorem isDead_iff {position : Position} :
    isDead function field position = true ↔ Dies function field position := by
  have each : Reach.unmetCost (fun _ => 1) (targets function) [] ≤ (targets function).length * 1 :=
    Reach.unmetCost_le (fun _ _ => Nat.le_refl 1) []
  have few := length_targets_le function
  have ends : (isDead? function field (2 * function.blocks.length + 1) [] false [position]).isSome =
      true :=
    isDead?_isSome (by rw [List.length_singleton]; omega)
  obtain ⟨result, found⟩ := Option.isSome_iff_exists.mp ends
  rw [isDead, found, Option.getD_some]
  exact (Searched.start function field position).of_isDead? found

end Finding

end Covenant
