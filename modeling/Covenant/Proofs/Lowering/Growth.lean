import Covenant.Proofs.Lowering.Steps

/-!
How a function grows while it is built. Expressions add instructions to the current block and
nothing else. Statements may add blocks, but leave all blocks alone that were there before, except
for the current one; and no block changes once it has ended.
-/

namespace Covenant

def OpenBlock.Becomes (block later : OpenBlock) : Prop :=
  block = later ∨ block.terminator = none ∧ block.instructions <+: later.instructions

namespace OpenBlock.Becomes

theorem refl (block : OpenBlock) : block.Becomes block := .inl rfl

theorem trans {block middle later : OpenBlock} (first : block.Becomes middle)
    (second : middle.Becomes later) :
    block.Becomes later := by
  rcases first with rfl | ⟨running, start⟩
  · exact second
  · rcases second with rfl | ⟨_, further⟩
    · exact .inr ⟨running, start⟩
    · exact .inr ⟨running, start.trans further⟩

end OpenBlock.Becomes

namespace EventScope

def Lists (events : EventScope) (declared : List Event) : Prop :=
  ∀ name, ((declared ++ events.implied).find? fun event => event.name == name).map
    (fun event => event.params.map Prod.snd) = events.types? name

structure Extends (events later : EventScope) : Prop where
  kept : ∀ name types, events.types? name = some types → later.types? name = some types
  listed : ∀ declared, events.Lists declared → later.Lists declared

theorem Extends.refl (events : EventScope) : events.Extends events :=
  ⟨fun _ _ known => known, fun _ listed => listed⟩

theorem Extends.trans {events middle later : EventScope} (first : events.Extends middle)
    (second : middle.Extends later) : events.Extends later where
  kept := fun name types known => second.kept name types (first.kept name types known)
  listed := fun declared listed => second.listed declared (first.listed declared listed)

theorem types?_imply (events : EventScope) (name other : String) (types : List Ty) :
    (events.imply name types).types? other = if other == name then some types
      else events.types? other := by
  simp only [types?, imply, List.lookup_cons]
  split <;> simp_all

theorem extends_imply {events : EventScope} {name : String} (fresh : events.types? name = none)
    (types : List Ty) :
    events.Extends (events.imply name types) where
  kept := by
    intro other shape known
    rw [types?_imply]
    cases same : other == name with
    | true =>
      rw [eq_of_beq same, fresh] at known
      simp at known
    | false => exact known
  listed := by
    intro declared listed other
    have before := listed other
    rw [types?_imply]
    simp only [imply, ← List.append_assoc, List.find?_append]
    cases same : other == name with
    | true =>
      rw [eq_of_beq same, fresh, Option.map_eq_none_iff] at before
      rw [eq_of_beq same]
      simp only [List.find?_append] at before
      rw [before]
      simp [List.map_map, Function.comp_def, List.zipIdx_map_fst]
    | false =>
      have apart : (name == other) = false := by
        rw [beq_eq_false_iff_ne] at same ⊢
        exact Ne.symm same
      simp only [List.find?_append] at before
      simp [apart, before]

end EventScope

namespace Builder

def IsOpen (builder : Builder) : Prop :=
  ∃ block, builder.blocks[builder.current]? = some block ∧ block.terminator = none

/-- What building a part of a function does to what was built before. Blocks with numbers below
`limit` are those that the part does not own, apart from the one that it starts in. -/
structure Grows (limit : Nat) (builder final : Builder) : Prop where
  scope : final.scope = builder.scope
  returns : final.returns = builder.returns
  outer : final.visible.tail = builder.visible.tail
  locals : builder.locals <+: final.locals
  values : builder.nextValue ≤ final.nextValue
  events : builder.events.Extends final.events
  blocks : ∀ (id : Nat) (block : OpenBlock), builder.blocks[id]? = some block →
    ∃ later : OpenBlock, final.blocks[id]? = some later ∧ block.Becomes later
  others : ∀ id : Nat, id < limit → id ≠ builder.current → final.blocks[id]? = builder.blocks[id]?
  current : final.current = builder.current ∨ limit ≤ final.current
  inside : builder.current < builder.blocks.length → final.current < final.blocks.length

namespace Grows

variable {limit : Nat} {builder middle final : Builder}

theorem refl (builder : Builder) : Grows limit builder builder where
  scope := rfl
  returns := rfl
  outer := rfl
  locals := List.prefix_refl _
  values := Nat.le_refl _
  events := .refl _
  blocks := fun _ block found => ⟨block, found, .refl block⟩
  others := fun _ _ _ => rfl
  current := .inl rfl
  inside := id

theorem trans (first : Grows limit builder middle) (second : Grows limit middle final) :
    Grows limit builder final where
  scope := second.scope.trans first.scope
  returns := second.returns.trans first.returns
  outer := second.outer.trans first.outer
  locals := first.locals.trans second.locals
  values := Nat.le_trans first.values second.values
  events := first.events.trans second.events
  blocks := by
    intro id block found
    obtain ⟨next, there, becomes⟩ := first.blocks id block found
    obtain ⟨later, present, further⟩ := second.blocks id next there
    exact ⟨later, present, becomes.trans further⟩
  others := by
    intro id low elsewhere
    have apart : id ≠ middle.current := by
      rcases first.current with same | high
      · rw [same]
        exact elsewhere
      · omega
    rw [second.others id low apart, first.others id low elsewhere]
  current := by
    rcases second.current with same | high
    · rw [same]
      exact first.current
    · exact .inr high
  inside := fun valid => second.inside (first.inside valid)

theorem mono {fewer : Nat} (grows : Grows limit builder final) (less : fewer ≤ limit) :
    Grows fewer builder final :=
  { grows with
    others := fun id low => grows.others id (by omega)
    current := by
      rcases grows.current with same | high
      · exact .inl same
      · exact .inr (by omega) }

theorem length_le (grows : Grows limit builder final) :
    builder.blocks.length ≤ final.blocks.length := by
  rcases Nat.eq_zero_or_pos builder.blocks.length with none | some
  · omega
  · obtain ⟨later, present, _⟩ := grows.blocks (builder.blocks.length - 1)
      (builder.blocks[builder.blocks.length - 1]) (List.getElem?_eq_getElem (by omega))
    have bound := (List.getElem?_eq_some_iff.mp present).1
    omega

end Grows

theorem IsOpen.inside {builder : Builder} (running : builder.IsOpen) :
    builder.current < builder.blocks.length := by
  obtain ⟨block, found, _⟩ := running
  exact (List.getElem?_eq_some_iff.mp found).1

theorem IsOpen.not_isEnded {builder : Builder} (running : builder.IsOpen) :
    builder.isEnded = false := by
  obtain ⟨block, found, free⟩ := running
  simp [isEnded, found, free]

theorem isOpen_of_not_isEnded {builder : Builder} (running : builder.isEnded = false)
    (inside : builder.current < builder.blocks.length) : builder.IsOpen := by
  refine ⟨builder.blocks[builder.current], List.getElem?_eq_getElem inside, ?_⟩
  simpa [isEnded, List.getElem?_eq_getElem inside] using running

/-! Adding instructions. -/

def extend (builder : Builder) (code : List (Located Instruction)) (next : ValueId) : Builder :=
  { builder with
    blocks := builder.blocks.modify builder.current fun block =>
      { block with instructions := block.instructions ++ code }
    nextValue := next }

theorem extend_extend (builder : Builder) (first second : List (Located Instruction))
    (middle next : ValueId) :
    (builder.extend first middle).extend second next = builder.extend (first ++ second) next := by
  simp only [extend, List.modify_modify_eq, Function.comp_def, List.append_assoc]

theorem extend_nil (builder : Builder) : builder.extend [] builder.nextValue = builder := by
  simp only [extend, List.append_nil]
  have same : builder.blocks.modify builder.current (fun block => block) = builder.blocks :=
    List.modify_id _ _
  rw [same]

theorem getElem?_extend (builder : Builder) (code : List (Located Instruction)) (next : ValueId)
    (id : BlockId) :
    (builder.extend code next).blocks[id]? =
      if builder.current = id then
        builder.blocks[id]?.map fun block =>
          { block with instructions := block.instructions ++ code }
      else builder.blocks[id]? := by
  simp only [extend, List.getElem?_modify]
  split <;> simp

theorem IsOpen.extend {builder : Builder} (running : builder.IsOpen)
    (code : List (Located Instruction)) (next : ValueId) : (builder.extend code next).IsOpen := by
  obtain ⟨block, found, free⟩ := running
  refine ⟨{ block with instructions := block.instructions ++ code }, ?_, free⟩
  have here : (builder.extend code next).current = builder.current := rfl
  rw [here, getElem?_extend, if_pos rfl, found]
  rfl

structure Emits (builder : Builder) (code : List (Located Instruction)) (final : Builder) :
    Prop where
  same : final = builder.extend code final.nextValue
  fresh : builder.nextValue ≤ final.nextValue

namespace Emits

variable {builder middle final : Builder} {code more : List (Located Instruction)}

theorem refl (builder : Builder) : builder.Emits [] builder :=
  ⟨(extend_nil builder).symm, Nat.le_refl _⟩

theorem trans (first : builder.Emits code middle) (second : middle.Emits more final) :
    builder.Emits (code ++ more) final := by
  refine ⟨?_, Nat.le_trans first.fresh second.fresh⟩
  rw [second.same, first.same, extend_extend]
  rfl

theorem emit (builder : Builder) (instruction : Instruction) (span : Span) :
    builder.Emits [⟨instruction, builder.scope.lines.location span.start⟩]
      (builder.emit instruction span) :=
  ⟨rfl, Nat.le_refl _⟩

theorem define (builder : Builder) (instruction : Instruction) (span : Span) :
    builder.Emits [⟨instruction, builder.scope.lines.location span.start⟩]
      ({ builder with nextValue := builder.nextValue + 1 }.emit instruction span) :=
  ⟨rfl, Nat.le_succ _⟩

theorem isOpen (emits : builder.Emits code final) (running : builder.IsOpen) : final.IsOpen := by
  rw [emits.same]
  exact running.extend code _

theorem grows (emits : builder.Emits code final) (running : builder.IsOpen) (limit : Nat) :
    Grows limit builder final := by
  rw [emits.same]
  obtain ⟨block, found, free⟩ := running
  exact {
    scope := rfl
    returns := rfl
    outer := rfl
    locals := List.prefix_refl _
    values := emits.fresh
    events := .refl _
    blocks := by
      intro id other there
      rw [getElem?_extend]
      split
      · rename_i here
        subst here
        rw [found] at there
        obtain rfl := Option.some.inj there
        exact ⟨_, by rw [found]; rfl, .inr ⟨free, List.prefix_append _ _⟩⟩
      · exact ⟨other, there, .refl other⟩
    others := by
      intro id _ elsewhere
      rw [getElem?_extend, if_neg (Ne.symm elsewhere)]
    current := .inl rfl
    inside := by
      intro valid
      simpa [extend] using valid }

end Emits

/-! Blocks. -/

theorem grows_withBlock {limit : Nat} (builder : Builder) (low : limit ≤ builder.blocks.length) :
    Grows limit builder builder.withBlock :=
  { (Grows.refl builder : Grows limit builder builder) with
    scope := rfl
    returns := rfl
    outer := rfl
    blocks := by
      intro id block found
      have bound := (List.getElem?_eq_some_iff.mp found).1
      exact ⟨block, by simpa [withBlock, List.getElem?_append_left bound] using found, .refl block⟩
    others := by
      intro id small _
      exact List.getElem?_append_left (by omega)
    inside := by
      intro valid
      change builder.current < (builder.blocks ++ [OpenBlock.mk [] none]).length
      simp only [List.length_append, List.length_singleton]
      exact Nat.lt_succ_of_lt valid }

theorem grows_terminate {limit : Nat} (builder : Builder) (terminator : Terminator) (span : Span) :
    Grows limit builder (builder.terminate terminator span) :=
  { (Grows.refl builder : Grows limit builder builder) with
    scope := rfl
    returns := rfl
    outer := rfl
    blocks := by
      intro id block found
      simp only [terminate, List.getElem?_modify, found]
      by_cases here : builder.current = id
      · by_cases ended : block.terminator.isSome
        · exact ⟨block, by simp [here, ended], .refl block⟩
        · exact ⟨{ block with
            terminator := some ⟨terminator, builder.scope.lines.location span.start⟩ }, by
              simp [here, ended], .inr ⟨by simpa using ended, List.prefix_refl _⟩⟩
      · exact ⟨block, by simp [here], .refl block⟩
    others := by
      intro id _ elsewhere
      simp only [terminate, List.getElem?_modify, if_neg (Ne.symm elsewhere)]
      simp
    inside := by
      intro valid
      simpa [terminate] using valid }

theorem grows_moveTo {limit : Nat} (builder : Builder) {block : BlockId} (high : limit ≤ block)
    (inside : block < builder.blocks.length) : Grows limit builder (builder.moveTo block) :=
  { (Grows.refl builder : Grows limit builder builder) with
    scope := rfl
    returns := rfl
    outer := rfl
    current := .inr high
    inside := fun _ => inside }

/-! New blocks. -/

@[simp] theorem length_withBlock (builder : Builder) :
    builder.withBlock.blocks.length = builder.blocks.length + 1 := by
  simp [withBlock]

@[simp] theorem length_terminate (builder : Builder) (terminator : Terminator) (span : Span) :
    (builder.terminate terminator span).blocks.length = builder.blocks.length := by
  simp [terminate]

@[simp] theorem length_moveTo (builder : Builder) (block : BlockId) :
    (builder.moveTo block).blocks.length = builder.blocks.length := rfl

theorem Emits.length {builder final : Builder} {code : List (Located Instruction)}
    (emits : builder.Emits code final) : final.blocks.length = builder.blocks.length := by
  rw [emits.same]
  simp [extend]

def IsBlank (builder : Builder) (block : BlockId) : Prop := builder.blocks[block]? = some ⟨[], none⟩

theorem isBlank_withBlock (builder : Builder) :
    builder.withBlock.IsBlank builder.blocks.length := by
  simp [IsBlank, withBlock]

theorem IsBlank.grows {limit : Nat} {builder final : Builder} {block : BlockId}
    (blank : builder.IsBlank block) (grows : Grows limit builder final) (low : block < limit)
    (other : block ≠ builder.current) :
    final.IsBlank block := by
  unfold IsBlank
  rw [grows.others block low other]
  exact blank

theorem IsBlank.inside {builder : Builder} {block : BlockId} (blank : builder.IsBlank block) :
    block < builder.blocks.length := (List.getElem?_eq_some_iff.mp blank).1

theorem IsBlank.isOpen {builder : Builder} {block : BlockId} (blank : builder.IsBlank block) :
    (builder.moveTo block).IsOpen := ⟨_, blank, rfl⟩

theorem IsBlank.withBlock {builder : Builder} {block : BlockId} (blank : builder.IsBlank block) :
    builder.withBlock.IsBlank block := by
  change (builder.blocks ++ [OpenBlock.mk [] none])[block]? = _
  rw [List.getElem?_append_left blank.inside]
  exact blank

theorem IsBlank.terminate {builder : Builder} {block : BlockId} (blank : builder.IsBlank block)
    (other : block ≠ builder.current) (terminator : Terminator) (span : Span) :
    (builder.terminate terminator span).IsBlank block := by
  have grows : Grows (block + 1) builder (builder.terminate terminator span) :=
    grows_terminate _ _ _
  exact blank.grows grows (Nat.lt_succ_self block) other

theorem IsBlank.behind {limit : Nat} {builder last : Builder} {block first : BlockId}
    (blank : builder.IsBlank block) (grows : Grows limit (builder.moveTo first) last)
    (low : block < limit) (other : block ≠ first) (terminator : Terminator) (span : Span) :
    (last.terminate terminator span).IsBlank block := by
  have waiting : (builder.moveTo first).IsBlank block := blank
  refine (waiting.grows grows low other).terminate ?_ terminator span
  rcases grows.current with same | high
  · rw [same]
    exact other
  · exact Nat.ne_of_lt (Nat.lt_of_lt_of_le low high)

theorem IsOpen.withBlock {builder : Builder} (running : builder.IsOpen) :
    builder.withBlock.IsOpen := by
  obtain ⟨block, found, free⟩ := running
  have inside := (List.getElem?_eq_some_iff.mp found).1
  refine ⟨block, ?_, free⟩
  change (builder.blocks ++ [OpenBlock.mk [] none])[builder.current]? = _
  rw [List.getElem?_append_left inside]
  exact found

theorem grows_leave {limit : Nat} {builder : Builder} {target : BlockId} {terminator : Terminator}
    {span : Span} (high : limit ≤ target)
    (waits : (builder.terminate terminator span).IsBlank target) :
    Grows limit builder ((builder.terminate terminator span).moveTo target) :=
  (grows_terminate builder terminator span).trans (grows_moveTo _ high waits.inside)

/-! Several new blocks. -/

def withBlocks : Nat → Builder → Builder
  | 0, builder => builder
  | count + 1, builder => (builder.withBlocks count).withBlock

section

variable {builder : Builder} {count : Nat}

@[simp] theorem length_withBlocks :
    (builder.withBlocks count).blocks.length = builder.blocks.length + count := by
  induction count with
  | zero => rfl
  | succ count ih => rw [withBlocks, length_withBlock, ih, Nat.add_assoc]

@[simp] theorem current_withBlocks : (builder.withBlocks count).current = builder.current := by
  induction count with
  | zero => rfl
  | succ count ih => exact ih

theorem grows_withBlocks {limit : Nat} (low : limit ≤ builder.blocks.length) :
    Grows limit builder (builder.withBlocks count) := by
  induction count with
  | zero => exact .refl builder
  | succ count ih =>
    exact ih.trans (grows_withBlock _ (length_withBlocks ▸ Nat.le_add_right_of_le low))

theorem isBlank_withBlocks {place : Nat} (fresh : place < count) :
    (builder.withBlocks count).IsBlank (builder.blocks.length + place) := by
  induction count with
  | zero => omega
  | succ count ih =>
    rcases Nat.lt_succ_iff_lt_or_eq.mp fresh with before | rfl
    · exact (ih before).withBlock
    · exact length_withBlocks ▸ (builder.withBlocks place).isBlank_withBlock

theorem IsOpen.withBlocks (running : builder.IsOpen) : (builder.withBlocks count).IsOpen := by
  induction count with
  | zero => exact running
  | succ count ih => exact ih.withBlock

end

/-! New variables. -/

theorem grows_addLocal {limit : Nat} (builder : Builder) (name : String) (ty : Ty) :
    Grows limit builder (builder.addLocal name ty) :=
  { (Grows.refl builder : Grows limit builder builder) with
    scope := rfl
    returns := rfl
    outer := by
      change (builder.visible.modify 0 _).tail = _
      cases builder.visible <;> rfl
    locals := List.prefix_append _ _ }

end Builder

end Covenant
