import Covenant.Proofs.Syntax.Nodes

/-!
How the nodes of a tree lie in a text. A node is neat if its span is not empty and holds the spans
of its children, one behind another. If all nodes below some nodes are neat, none of them is there
twice, and they start in order.
-/

namespace Covenant

namespace Node

structure Neat (limit : Nat) (node : Node) : Prop where
  filled : node.span.start < node.span.stop
  inside : node.span.stop ≤ limit
  around : ∀ child ∈ node.children, node.span.start ≤ child.span.start ∧
    child.span.stop ≤ node.span.stop
  apart : node.children.Pairwise fun first second => first.span.stop ≤ second.span.start

structure Laid (limit start stop : Nat) (nodes : List Node) : Prop where
  within : ∀ node ∈ nodes, start ≤ node.span.start ∧ node.span.stop ≤ stop
  apart : nodes.Pairwise fun first second => first.span.stop ≤ second.span.start
  neat : ∀ node ∈ nodes, ∀ part ∈ node.nodes, part.Neat limit

variable {limit start stop : Nat} {node : Node} {nodes others : List Node}

theorem laid_nil (limit start stop : Nat) : Laid limit start stop [] :=
  ⟨by simp, .nil, by simp⟩

theorem Laid.widen (laid : Laid limit start stop nodes) {before after : Nat}
    (earlier : before ≤ start) (later : stop ≤ after) : Laid limit before after nodes := by
  refine ⟨?_, laid.apart, laid.neat⟩
  intro node member
  have := laid.within node member
  omega

theorem Laid.append {reached further : Nat} (first : Laid limit start reached nodes)
    (second : Laid limit further stop others) (before : start ≤ further)
    (between : reached ≤ further) (after : reached ≤ stop) :
    Laid limit start stop (nodes ++ others) := by
  constructor
  · intro node member
    rcases List.mem_append.mp member with early | late
    · have := first.within node early
      omega
    · have := second.within node late
      omega
  · refine List.pairwise_append.mpr ⟨first.apart, second.apart, ?_⟩
    intro node early other late
    have := first.within node early
    have := second.within other late
    omega
  · intro node member
    rcases List.mem_append.mp member with early | late
    · exact first.neat node early
    · exact second.neat node late

theorem Laid.enclose (laid : Laid limit start stop node.children)
    (spanned : node.span = ⟨start, stop⟩) (filled : start < stop) (inside : stop ≤ limit) :
    Laid limit start stop [node] := by
  have neat : node.Neat limit := by
    constructor
    · rw [spanned]
      exact filled
    · rw [spanned]
      exact inside
    · rw [spanned]
      exact laid.within
    · exact laid.apart
  constructor
  · intro other member
    obtain rfl := List.mem_singleton.mp member
    rw [spanned]
    exact ⟨Nat.le_refl _, Nat.le_refl _⟩
  · exact List.pairwise_singleton _ _
  · intro other member part below
    obtain rfl := List.mem_singleton.mp member
    rw [nodes_eq] at below
    rcases List.mem_cons.mp below with rfl | below
    · exact neat
    · obtain ⟨child, inside, member⟩ := List.mem_flatMap.mp below
      exact laid.neat child inside part member

theorem Laid.to_last (nodes : List Node) {last : Node}
    (laid : Laid limit start stop (nodes ++ [last])) :
    ∀ node ∈ nodes, node.span.start ≤ last.span.start ∧ node.span.stop ≤ last.span.stop := by
  intro node member
  have apart := (List.pairwise_append.mp laid.apart).2.2 node member last List.mem_cons_self
  have first := (laid.neat node (List.mem_append_left _ member) node (self_mem_nodes node)).filled
  have second := (laid.neat last (by simp) last (self_mem_nodes last)).filled
  omega

theorem Laid.reach (nodes : List Node) {last : Node} {before : Nat}
    (laid : Laid limit start stop node.children) (children : node.children = nodes ++ [last])
    (spanned : node.span = ⟨before, last.span.stop⟩) (later : start ≤ before)
    (inside : ∀ child ∈ node.children, before ≤ child.span.start) :
    Laid limit start stop [node] := by
  have listed : last ∈ node.children := by simp [children]
  have neat := laid.neat last listed last (self_mem_nodes last)
  have filled := neat.filled
  have within := laid.within last listed
  have started := inside last listed
  have ended : ∀ child ∈ node.children, child.span.stop ≤ last.span.stop := by
    intro child below
    rw [children] at below laid
    rcases List.mem_append.mp below with earlier | same
    · exact (laid.to_last nodes child earlier).2
    · obtain rfl := List.mem_singleton.mp same
      exact Nat.le_refl _
  have narrow : Laid limit before last.span.stop node.children :=
    ⟨fun child below => ⟨inside child below, ended child below⟩, laid.apart, laid.neat⟩
  exact (narrow.enclose spanned (by omega) neat.inside).widen later within.2

theorem Laid.children (laid : Laid limit start stop [node]) :
    Laid limit start stop node.children := by
  have own := laid.neat node List.mem_cons_self node (self_mem_nodes node)
  have within := laid.within node List.mem_cons_self
  refine ⟨?_, own.apart, ?_⟩
  · intro child below
    have := own.around child below
    omega
  · intro child below part member
    refine laid.neat node List.mem_cons_self part ?_
    rw [nodes_eq]
    exact .tail _ (List.mem_flatMap.mpr ⟨child, below, member⟩)

theorem Laid.perm (laid : Laid limit start stop nodes) (same : others.Perm nodes)
    (ordered : others.Pairwise fun first second => first.span.start ≤ second.span.start) :
    Laid limit start stop others := by
  refine ⟨fun node member => laid.within node (same.subset member), ?_,
    fun node member => laid.neat node (same.subset member)⟩
  let Distinct (first second : Node) : Prop :=
    first.span.stop ≤ second.span.start ∨ second.span.stop ≤ first.span.start
  have distinct : others.Pairwise Distinct := by
    refine (same.pairwise_iff fun {_ _} => Or.symm).mpr ?_
    exact laid.apart.imp Or.inl
  refine (distinct.and ordered).imp_of_mem ?_
  intro first second _ member ⟨different, ordered⟩
  have filled := (laid.neat second (same.subset member) second (self_mem_nodes second)).filled
  rcases different with before | behind
  · exact before
  · omega

theorem within_of_neat (neat : ∀ part ∈ node.nodes, part.Neat limit) :
    ∀ part ∈ node.nodes, node.span.start ≤ part.span.start ∧ part.span.stop ≤ node.span.stop := by
  induction node using induction with
  | step node ih =>
    intro part below
    have own := neat node (self_mem_nodes node)
    rw [nodes_eq] at below neat
    rcases List.mem_cons.mp below with rfl | below
    · exact ⟨Nat.le_refl _, Nat.le_refl _⟩
    · obtain ⟨child, inside, member⟩ := List.mem_flatMap.mp below
      have around := own.around child inside
      have := ih child inside
        (fun other deeper => neat other (.tail _ (List.mem_flatMap.mpr ⟨child, inside, deeper⟩)))
        part member
      omega

def Before (first second : Node) : Prop := first ≠ second ∧ first.span.start ≤ second.span.start

theorem Laid.before (laid : Laid limit start stop nodes)
    (each : ∀ node ∈ nodes, node.nodes.Pairwise Before) :
    (nodes.flatMap Node.nodes).Pairwise Before := by
  refine List.pairwise_flatMap.mpr ⟨each, ?_⟩
  refine laid.apart.imp_of_mem ?_
  intro first second firstListed secondListed apart part below other inside
  have early := within_of_neat (laid.neat first firstListed) part below
  have late := within_of_neat (laid.neat second secondListed) other inside
  have filled := (laid.neat first firstListed part below).filled
  constructor
  · rintro rfl
    omega
  · omega

theorem before_nodes (neat : ∀ part ∈ node.nodes, part.Neat limit) :
    node.nodes.Pairwise Before := by
  induction node using induction with
  | step node ih =>
    have own := neat node (self_mem_nodes node)
    have within := within_of_neat neat
    rw [nodes_eq] at neat within ⊢
    have below : ∀ child ∈ node.children, ∀ part ∈ child.nodes, part.Neat limit := by
      intro child inside part member
      exact neat part (.tail _ (List.mem_flatMap.mpr ⟨child, inside, member⟩))
    have laid : Laid limit node.span.start node.span.stop node.children :=
      ⟨own.around, own.apart, below⟩
    refine List.pairwise_cons.mpr
      ⟨?_, laid.before fun child inside => ih child inside (below child inside)⟩
    intro part member
    refine ⟨?_, (within part (.tail _ member)).1⟩
    rintro rfl
    obtain ⟨child, inside, member⟩ := List.mem_flatMap.mp member
    have shorter := length_nodes_of_child inside
    have bound := length_nodes_of_mem node member
    omega

theorem Laid.pairwise_before (laid : Laid limit start stop nodes) :
    (nodes.flatMap Node.nodes).Pairwise Before :=
  laid.before fun node member => before_nodes (laid.neat node member)

end Node

end Covenant
