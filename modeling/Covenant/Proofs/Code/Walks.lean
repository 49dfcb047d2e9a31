import Covenant.Proofs.Code.Traversals
import Mathlib.Data.List.Chain
import Mathlib.Tactic.SplitIfs

/-!
Walks through the graph of a function. A walk that goes back a limited number of times, each time
that it is in a loop, weighs no more than labels say that count each loop that number of times and
lead down along all other edges: between the first and the last time that it is at the first of its
blocks it stays in the loops of that block, and what comes after that lies behind.
-/

namespace Covenant

namespace FlowGraph

def turns (graph : FlowGraph) : List BlockId → Nat
  | [] => 0
  | [_] => 0
  | source :: target :: rest =>
    (if graph.backEdges.contains (source, target) then 1 else 0) + graph.turns (target :: rest)

def loop (graph : FlowGraph) (header : BlockId) : List BlockId :=
  graph.backEdges.flatMap fun edge => if edge.2 == header then graph.naturalLoop edge.1 edge.2
    else []

/-- Whether a walk, each time that it is in the loops that start at a block, goes back at most
`bound` times, in these loops and in those inside them, before it leaves them. -/
def TurnsWithin (graph : FlowGraph) (bound : Nat) (walk : List BlockId) : Prop :=
  ∀ header segment, segment <:+: walk → (∀ block ∈ segment, block ∈ graph.loop header) →
    graph.turns segment ≤ bound

def IsWalk (graph : FlowGraph) (walk : List BlockId) : Prop :=
  walk.IsChain fun source target => target ∈ graph.successors source

/-- Whether labels of the blocks, as far as they stay below a ceiling, count the loops of each block
`bound` times, and lead down along the edges that do not lead back. -/
structure Labels (graph : FlowGraph) (weight : BlockId → Nat) (bound ceiling : Nat)
    (label : BlockId → Nat) : Prop where
  here : ∀ block ∈ graph.reversePostorder,
    min (weight block + weigh weight (graph.loop block) * bound) ceiling ≤ label block
  next : ∀ block ∈ graph.reversePostorder, ∀ target ∈ graph.successors block, (block, target) ∉
    graph.backEdges →
    min (weight block + weigh weight (graph.loop block) * bound + label target) ceiling ≤
      label block

theorem TurnsWithin.part {graph : FlowGraph} {bound : Nat} {walk part : List BlockId}
    (within : graph.TurnsWithin bound walk) (inside : part <:+: walk) :
    graph.TurnsWithin bound part :=
  fun header segment shorter among => within header segment (shorter.trans inside) among

theorem IsWalk.part {graph : FlowGraph} {walk part : List BlockId} (walks : graph.IsWalk walk)
    (inside : part <:+: walk) :
    graph.IsWalk part := by
  obtain ⟨before, behind, rfl⟩ := inside
  exact (List.isChain_append.mp (List.isChain_append.mp walks).1).2.1

theorem turns_lt_length (graph : FlowGraph) (block : BlockId) (rest : List BlockId) :
    graph.turns (block :: rest) < (block :: rest).length := by
  induction rest generalizing block with
  | nil => exact Nat.one_pos
  | cons target rest ih =>
    have further := ih target
    simp only [turns, List.length_cons] at further ⊢
    split <;> omega

theorem turnsWithin_of_length {graph : FlowGraph} {bound : Nat} {walk : List BlockId}
    (short : walk.length ≤ bound + 1) :
    graph.TurnsWithin bound walk := by
  intro header segment inside _
  cases segment with
  | nil => exact Nat.zero_le bound
  | cons block rest =>
    have fewer := turns_lt_length graph block rest
    have shorter := inside.length_le
    omega

/-! Loops. -/

section Loops

variable {function : Function} {source header block target : BlockId}

theorem mem_loop {graph : FlowGraph} : block ∈ graph.loop header ↔
    ∃ source, (source, header) ∈ graph.backEdges ∧ block ∈ graph.naturalLoop source header := by
  simp only [loop, List.mem_flatMap, Prod.exists]
  constructor
  · rintro ⟨start, end_, back, member⟩
    split at member
    · rename_i same
      obtain rfl := eq_of_beq same
      exact ⟨start, back, member⟩
    · simp at member
  · rintro ⟨start, back, member⟩
    exact ⟨start, header, back, by simpa using member⟩

theorem source_mem_loop {graph : FlowGraph} (back : (source, header) ∈ graph.backEdges) :
    source ∈ graph.loop header := by
  have low := lt_size_of_next (mem_backEdges.mp back).2.1
  refine mem_loop.mpr ⟨source, back, (mem_naturalLoop low).mpr ?_⟩
  by_cases same : source = header
  · exact .inl same
  · exact .inr ⟨same, .refl⟩

theorem mem_loop_of_next {graph : FlowGraph} (member : target ∈ graph.loop header)
    (apart : target ≠ header) (edge : target ∈ graph.successors block) :
    block ∈ graph.loop header := by
  obtain ⟨source, back, inside⟩ := mem_loop.mp member
  have low := lt_size_of_next (mem_backEdges.mp back).2.1
  obtain ⟨past, way⟩ := ((mem_naturalLoop low).mp inside).resolve_left apart
  refine mem_loop.mpr ⟨source, back, (mem_naturalLoop low).mpr ?_⟩
  by_cases same : block = header
  · exact .inl same
  · exact .inr ⟨past, way.tail ⟨mem_predecessors.mpr ⟨lt_size_of_next edge, edge⟩, same⟩⟩

end Loops

/-! Weights. -/

section Weights

variable {graph : FlowGraph} {weight : BlockId → Nat} {block target : BlockId}
  {blocks : List BlockId}

def place (graph : FlowGraph) (block : BlockId) : Nat := graph.reversePostorder.idxOf block

def notBefore (graph : FlowGraph) (block : BlockId) (blocks : List BlockId) : List BlockId :=
  blocks.filter fun other => graph.place block ≤ graph.place other

theorem weigh_notBefore_cons (graph : FlowGraph) (weight : BlockId → Nat) (block first : BlockId)
    (rest : List BlockId) :
    weigh weight (graph.notBefore block (first :: rest)) =
      (if graph.place block ≤ graph.place first then weight first else 0) + weigh weight
      (graph.notBefore block rest) := by
  unfold notBefore
  simp only [List.filter_cons, decide_eq_true_eq]
  split_ifs <;> simp

theorem weigh_notBefore_le (graph : FlowGraph) (weight : BlockId → Nat) (block : BlockId)
    (blocks : List BlockId) :
    weigh weight (graph.notBefore block blocks) ≤ weigh weight blocks := by
  induction blocks with
  | nil => exact Nat.le_refl 0
  | cons first rest ih =>
    rw [weigh_notBefore_cons, weigh_cons]
    split_ifs <;> omega

theorem weight_le_notBefore (graph : FlowGraph) (weight : BlockId → Nat) (member : block ∈ blocks) :
    weight block ≤ weigh weight (graph.notBefore block blocks) := by
  induction blocks with
  | nil => simp at member
  | cons first rest ih =>
    rw [weigh_notBefore_cons]
    rcases List.mem_cons.mp member with rfl | later
    · rw [if_pos (Nat.le_refl _)]
      exact Nat.le_add_right _ _
    · exact Nat.le_trans (ih later) (Nat.le_add_left _ _)

theorem weigh_notBefore_mono (weight : BlockId → Nat)
    (climbs : graph.place block < graph.place target) (blocks : List BlockId) :
    weigh weight (graph.notBefore target blocks) ≤ weigh weight (graph.notBefore block blocks) := by
  induction blocks with
  | nil => exact Nat.le_refl 0
  | cons first rest ih =>
    rw [weigh_notBefore_cons, weigh_notBefore_cons]
    split_ifs <;> omega

theorem weight_add_notBefore_le (weight : BlockId → Nat) (member : block ∈ blocks)
    (climbs : graph.place block < graph.place target) :
    weight block + weigh weight (graph.notBefore target blocks) ≤ weigh weight
      (graph.notBefore block blocks) := by
  induction blocks with
  | nil => simp at member
  | cons first rest ih =>
    rw [weigh_notBefore_cons, weigh_notBefore_cons]
    rcases List.mem_cons.mp member with rfl | later
    · have rests := weigh_notBefore_mono weight climbs rest
      rw [if_neg (Nat.not_le.mpr climbs), if_pos (Nat.le_refl _)]
      omega
    · have further := ih later
      split_ifs <;> omega

end Weights

/-! Walks. -/

section Walks

variable {function : Function} {graph : FlowGraph} {header block target : BlockId}
  {walk : List BlockId}

theorem Reducible.place_lt (reducible : graph.Reducible) (reached : block ∈ graph.reversePostorder)
    (edge : target ∈ graph.successors block) (onward : (block, target) ∉ graph.backEdges) :
    graph.place block < graph.place target :=
  reducible.idxOf_lt ⟨reached, edge, onward⟩

theorem Reducible.mem_backEdges_of_le (reducible : graph.Reducible)
    (reached : block ∈ graph.reversePostorder) (edge : target ∈ graph.successors block)
    (falls : graph.place target ≤ graph.place block) :
    (block, target) ∈ graph.backEdges := by
  by_contra onward
  exact Nat.not_lt.mpr falls (reducible.place_lt reached edge onward)

theorem eq_of_place_eq (reached : block ∈ graph.reversePostorder)
    (same : graph.place block = graph.place target) :
    block = target :=
  (List.idxOf_inj reached).mp same

theorem place_entry (inside : function.entry < function.blocks.length) :
    (ofFunction function).place function.entry = 0 := by
  obtain ⟨rest, order⟩ := List.head?_eq_some_iff.mp (head_reversePostorder inside)
  simp [place, order]

theorem IsWalk.reached (walks : (ofFunction function).IsWalk (block :: walk))
    (start : block ∈ (ofFunction function).reversePostorder) :
    ∀ other ∈ block :: walk, other ∈ (ofFunction function).reversePostorder := by
  induction walk generalizing block with
  | nil => simpa using start
  | cons next rest ih =>
    obtain ⟨edge, further⟩ := List.isChain_cons_cons.mp walks
    exact List.forall_mem_cons.mpr ⟨start, ih further (mem_reversePostorder_of_next start edge)⟩

theorem Reducible.mem_loop_of_return (reducible : graph.Reducible)
    (walks : graph.IsWalk (walk ++ [header]))
    (reached : ∀ block ∈ walk, block ∈ graph.reversePostorder)
    (above : ∀ block ∈ walk, graph.place header ≤ graph.place block) :
    ∀ block ∈ walk, block ∈ graph.loop header := by
  induction walk with
  | nil => simp
  | cons block rest ih =>
    obtain ⟨here, later⟩ := List.forall_mem_cons.mp reached
    obtain ⟨high, higher⟩ := List.forall_mem_cons.mp above
    have returns {target : BlockId} (edge : target ∈ graph.successors block)
        (same : target = header) :
        block ∈ graph.loop header :=
      source_mem_loop (reducible.mem_backEdges_of_le here (same ▸ edge) high)
    cases rest with
    | nil => simpa using returns (List.isChain_pair.mp walks) rfl
    | cons target rest =>
      obtain ⟨edge, further⟩ := List.isChain_cons_cons.mp walks
      have others := ih further later higher
      refine List.forall_mem_cons.mpr ⟨?_, others⟩
      by_cases same : target = header
      · exact returns edge same
      · exact mem_loop_of_next (others target List.mem_cons_self) same edge

/-- Where a walk comes down to a block that is lower than all before, that block dominates those
before. -/
theorem Reducible.dominates_of_descent (reducible : (ofFunction function).Reducible)
    (walks : (ofFunction function).IsWalk (walk ++ [header]))
    (reached : ∀ block ∈ walk, block ∈ (ofFunction function).reversePostorder)
    (above : ∀ block ∈ walk, (ofFunction function).place header <
      (ofFunction function).place block) :
    ∀ block ∈ walk, (ofFunction function).dominates header block = true := by
  induction walk with
  | nil => simp
  | cons block rest ih =>
    obtain ⟨here, later⟩ := List.forall_mem_cons.mp reached
    obtain ⟨high, higher⟩ := List.forall_mem_cons.mp above
    cases rest with
    | nil =>
      have back := reducible.mem_backEdges_of_le here (List.isChain_pair.mp walks)
        (Nat.le_of_lt high)
      simpa using (mem_backEdges.mp back).2.2
    | cons target rest =>
      obtain ⟨edge, further⟩ := List.isChain_cons_cons.mp walks
      have others := ih further later higher
      obtain ⟨taller, _⟩ := List.forall_mem_cons.mp higher
      have apart : header ≠ target := fun same => Nat.lt_irrefl _ (same ▸ taller)
      exact List.forall_mem_cons.mpr
        ⟨dominates_of_next here edge apart (others target List.mem_cons_self), others⟩

/-- What comes before a return weighs no more than all blocks together, each time that the walk goes
back. -/
theorem Reducible.weigh_le_turns (reducible : graph.Reducible) (weight : BlockId → Nat)
    {blocks : List BlockId} (walks : graph.IsWalk (block :: walk ++ [header]))
    (reached : ∀ other ∈ block :: walk, other ∈ graph.reversePostorder)
    (above : ∀ other ∈ block :: walk, graph.place header ≤ graph.place other)
    (among : ∀ other ∈ block :: walk, other ∈ blocks) :
    weigh weight (block :: walk) + weigh weight blocks ≤
      weigh weight (graph.notBefore block blocks) + graph.turns (block :: walk ++ [header]) *
      weigh weight blocks := by
  induction walk generalizing block with
  | nil =>
    have back := reducible.mem_backEdges_of_le (reached block List.mem_cons_self)
      (List.isChain_pair.mp walks) (above block List.mem_cons_self)
    have light := weight_le_notBefore graph weight (among block List.mem_cons_self)
    simp [turns, back]
    omega
  | cons target rest ih =>
    obtain ⟨edge, further⟩ := List.isChain_cons_cons.mp walks
    obtain ⟨here, later⟩ := List.forall_mem_cons.mp reached
    obtain ⟨_, higher⟩ := List.forall_mem_cons.mp above
    obtain ⟨listed, others⟩ := List.forall_mem_cons.mp among
    have rests := ih further later higher others
    have split : graph.turns (block :: target :: rest ++ [header]) =
        (if graph.backEdges.contains (block, target) then 1 else 0) + graph.turns
          (target :: rest ++ [header]) := rfl
    rw [split, Nat.add_mul, weigh_cons]
    by_cases back : (block, target) ∈ graph.backEdges
    · have light := weight_le_notBefore graph weight listed
      have fewer := weigh_notBefore_le graph weight target blocks
      rw [if_pos (by simpa using back), Nat.one_mul]
      omega
    · have lighter := weight_add_notBefore_le weight listed (reducible.place_lt here edge back)
      rw [if_neg (by simpa using back), Nat.zero_mul]
      omega

theorem exists_last_split {α : Type} {item : α} {items : List α} (member : item ∈ items) :
    ∃ before behind, items = before ++ item :: behind ∧ item ∉ behind := by
  obtain ⟨later, earlier, same, fresh⟩ := List.eq_append_cons_of_mem (List.mem_reverse.mpr member)
  refine ⟨earlier.reverse, later.reverse, ?_, by simpa using fresh⟩
  rw [← List.reverse_reverse items, same]
  simp

theorem Reducible.weigh_returns_le (reducible : graph.Reducible) (weight : BlockId → Nat)
    {bound : Nat} (walks : graph.IsWalk (walk ++ [header]))
    (reached : ∀ block ∈ walk, block ∈ graph.reversePostorder)
    (above : ∀ block ∈ walk, graph.place header ≤ graph.place block)
    (start : walk = [] ∨ walk.head? = some header)
    (within : graph.TurnsWithin bound (walk ++ [header])) :
    weigh weight walk ≤ weigh weight (graph.loop header) * bound := by
  cases walk with
  | nil => simp
  | cons block rest =>
    obtain rfl : block = header := by simpa using start
    have among := reducible.mem_loop_of_return walks reached above
    have few : graph.turns (block :: rest ++ [block]) ≤ bound := by
      refine within block _ List.infix_rfl fun other listed => ?_
      rcases List.mem_append.mp listed with before | last
      · exact among other before
      · exact (List.mem_singleton.mp last) ▸ among block List.mem_cons_self
    have light := reducible.weigh_le_turns weight walks reached above among
    have fewer := weigh_notBefore_le graph weight block (graph.loop block)
    have most := Nat.mul_le_mul_right (weigh weight (graph.loop block)) few
    rw [Nat.mul_comm bound] at most
    omega

/-- What comes behind the last time that a walk is at its first block lies above the block that
comes next. -/
theorem Reducible.lowest_of_next (reducible : (ofFunction function).Reducible)
    {first next : BlockId} {rest : List BlockId}
    (walks : (ofFunction function).IsWalk (first :: next :: rest))
    (start : first ∈ (ofFunction function).reversePostorder)
    (above : ∀ block ∈ next :: rest, (ofFunction function).place first <
      (ofFunction function).place block)
    (dominators : ∀ upper, (ofFunction function).dominates upper first = true →
      (ofFunction function).place upper ≤ (ofFunction function).place first) :
    ∀ block ∈ next :: rest, (ofFunction function).place next ≤
      (ofFunction function).place block := by
  obtain ⟨edge, further⟩ := List.isChain_cons_cons.mp walks
  have reached := IsWalk.reached further (mem_reversePostorder_of_next start edge)
  obtain ⟨lowest, found⟩ := Option.isSome_iff_exists.mp
    (List.isSome_min?_of_mem
      (List.mem_map_of_mem (f := (ofFunction function).place)
        (List.mem_cons_self (a := next) (l := rest))))
  obtain ⟨listed, least⟩ := List.min?_eq_some_iff.mp found
  obtain ⟨low, member, same⟩ := List.mem_map.mp listed
  have under : ∀ block ∈ next :: rest, (ofFunction function).place low ≤
      (ofFunction function).place block :=
    fun block there => same ▸ least _ (List.mem_map_of_mem there)
  -- a block that is lower than the next one would dominate it, and the first one too
  obtain ⟨before, behind, split, fresh⟩ := List.eq_append_cons_of_mem member
  cases before with
  | nil =>
    obtain ⟨rfl, _⟩ := List.cons.inj split
    exact under
  | cons entered others =>
    obtain ⟨rfl, tail⟩ := List.cons.inj split
    have strict : ∀ block ∈ next :: others, (ofFunction function).place low <
        (ofFunction function).place block := by
      intro block there
      have kept : block ∈ next :: rest := split ▸ List.mem_append_left _ there
      refine Nat.lt_of_le_of_ne (under block kept) fun equal => fresh ?_
      rwa [eq_of_place_eq (reached low member) equal]
    have part : (ofFunction function).IsWalk (next :: others ++ [low]) := by
      rw [split] at further
      exact IsWalk.part further ⟨[], behind, by simp⟩
    have dominating := reducible.dominates_of_descent part
      (fun block there => reached block (split ▸ List.mem_append_left _ there)) strict next
      List.mem_cons_self
    have apart : low ≠ next := fun equal => fresh (equal ▸ List.mem_cons_self)
    have falls := dominators low (dominates_of_next start edge apart dominating)
    exact absurd (above low member) (Nat.not_lt.mpr falls)

/-- A walk that goes back no more often than labels allow for weighs no more than the label of its
first block. -/
theorem Reducible.weigh_le_label (reducible : (ofFunction function).Reducible)
    {weight label : BlockId → Nat} {bound ceiling : Nat}
    (labels : (ofFunction function).Labels weight bound ceiling label) {first : BlockId}
    {rest : List BlockId} (walks : (ofFunction function).IsWalk (first :: rest))
    (start : first ∈ (ofFunction function).reversePostorder)
    (above : ∀ block ∈ first :: rest, (ofFunction function).place first ≤
      (ofFunction function).place block)
    (dominators : ∀ upper, (ofFunction function).dominates upper first = true →
      (ofFunction function).place upper ≤ (ofFunction function).place first)
    (within : (ofFunction function).TurnsWithin bound (first :: rest)) :
    min (weigh weight (first :: rest)) ceiling ≤ label first := by
  induction size : rest.length using Nat.strong_induction_on generalizing first rest with
  | _ count ih =>
  have reached := walks.reached start
  obtain ⟨before, behind, split, fresh⟩ :=
    exists_last_split (List.mem_cons_self (a := first) (l := rest))
  rw [split] at walks above reached within ⊢
  have returns : weigh weight before ≤ weigh weight ((ofFunction function).loop first) * bound := by
    refine reducible.weigh_returns_le weight (walks.part ⟨[], behind, by simp⟩)
      (fun block listed => reached block (List.mem_append_left _ listed))
      (fun block listed => above block (List.mem_append_left _ listed)) ?_
      (within.part ⟨[], behind, by simp⟩)
    cases before with
    | nil => exact .inl rfl
    | cons block others => exact .inr (congrArg some (List.cons.inj split).1.symm)
  rw [weigh_append, weigh_cons]
  cases behind with
  | nil =>
    have here := labels.here first start
    simp only [weigh_nil, Nat.add_zero]
    omega
  | cons next others =>
    have tail : (ofFunction function).IsWalk (first :: next :: others) :=
      walks.part ⟨before, [], by simp⟩
    obtain ⟨edge, further⟩ := List.isChain_cons_cons.mp tail
    have strict : ∀ block ∈ next :: others, (ofFunction function).place first <
        (ofFunction function).place block := by
      intro block listed
      refine Nat.lt_of_le_of_ne
        (above block (List.mem_append_right _ (List.mem_cons_of_mem _ listed))) fun same => fresh ?_
      rwa [eq_of_place_eq start same]
    have onward : (first, next) ∉ (ofFunction function).backEdges := fun back =>
      Nat.not_lt.mpr (dominators next (mem_backEdges.mp back).2.2) (strict next List.mem_cons_self)
    have rests : min (weigh weight (next :: others)) ceiling ≤ label next := by
      have shorter : others.length < count := by
        have whole := congrArg List.length split
        simp only [List.length_cons, List.length_append] at whole
        omega
      refine ih _ shorter further (mem_reversePostorder_of_next start edge)
        (reducible.lowest_of_next tail start strict dominators) (fun upper dominates => ?_)
        (within.part ⟨before ++ [first], [], by simp⟩) rfl
      by_cases same : upper = next
      · exact same ▸ Nat.le_refl _
      · exact Nat.le_trans (dominators upper (dominates_of_next start edge same dominates))
          (Nat.le_of_lt (strict next List.mem_cons_self))
    have onwards := labels.next first start next edge onward
    omega

theorem Reducible.weigh_le_label_entry (inside : function.entry < function.blocks.length)
    (reducible : (ofFunction function).Reducible) {weight label : BlockId → Nat}
    {bound ceiling : Nat} (labels : (ofFunction function).Labels weight bound ceiling label)
    {rest : List BlockId} (walks : (ofFunction function).IsWalk (function.entry :: rest))
    (within : (ofFunction function).TurnsWithin bound (function.entry :: rest)) :
    min (weigh weight (function.entry :: rest)) ceiling ≤ label function.entry := by
  have start := entry_mem_reversePostorder inside
  refine reducible.weigh_le_label labels walks start (fun block _ => ?_)
    (fun upper dominates => ?_) within
  · rw [place_entry inside]
    exact Nat.zero_le _
  · rw [eq_of_dominates_entry dominates]

end Walks

end FlowGraph

end Covenant
