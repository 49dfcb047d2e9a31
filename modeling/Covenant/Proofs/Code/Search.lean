import Covenant.Proofs.Code.Reach
import Mathlib.Logic.Relation

/-!
Searches that keep a stack. Depth-first search with a stack of its own gives what it gives by
recursion, and the search that keeps a stack of nodes still to be looked at gives what can be
reached. Both end: each step either takes a node off the stack or meets a new one, and a node is met
once.
-/

namespace Covenant

namespace Reach

variable {α : Type} [BEq α] [LawfulBEq α] {next : α → List α} {nodes : List α}

def unmetCost (cost : α → Nat) : List α → List α → Nat
  | [], _ => 0
  | first :: rest, seen =>
    (if seen.contains first then 0 else cost first) + unmetCost cost rest seen

omit [LawfulBEq α] in
theorem unmetCost_cons (cost : α → Nat) (first : α) (nodes seen : List α) :
    unmetCost cost (first :: nodes) seen =
    (if seen.contains first then 0 else cost first) + unmetCost cost nodes seen := rfl

omit [LawfulBEq α] in
theorem unmetCost_length (next : α → List α) (nodes : List α) :
    unmetCost (fun node => (next node).length) nodes [] = (nodes.flatMap next).length := by
  induction nodes with
  | nil => rfl
  | cons first rest ih => simp [unmetCost_cons, ih]

omit [LawfulBEq α] in
theorem unmetCost_succ (cost : α → Nat) (nodes : List α) :
    unmetCost (fun node => cost node + 1) nodes [] = unmetCost cost nodes [] + nodes.length := by
  induction nodes with
  | nil => rfl
  | cons first rest ih =>
    simp only [unmetCost_cons, ih, List.contains_nil, Bool.false_eq_true, if_false,
      List.length_cons]
    omega

omit [LawfulBEq α] in
theorem unmetCost_le {cost : α → Nat} {most : Nat} (each : ∀ node ∈ nodes, cost node ≤ most)
    (seen : List α) :
    unmetCost cost nodes seen ≤ nodes.length * most := by
  induction nodes with
  | nil => exact Nat.zero_le _
  | cons first rest ih =>
    obtain ⟨here, others⟩ := List.forall_mem_cons.mp each
    have later := ih others
    rw [unmetCost_cons, List.length_cons, Nat.succ_mul]
    split <;> omega

theorem unmetCost_mono (cost : α → Nat) {seen more : List α} (keeps : ∀ node ∈ seen, node ∈ more)
    (nodes : List α) :
    unmetCost cost nodes more ≤ unmetCost cost nodes seen := by
  induction nodes with
  | nil => exact Nat.le_refl _
  | cons first rest ih =>
    rw [unmetCost_cons, unmetCost_cons]
    have here : seen.contains first = true → more.contains first = true := by
      simpa using keeps first
    split
    · omega
    · rename_i unmet
      rw [if_neg fun met => unmet (here met)]
      omega

theorem unmetCost_cons_le (cost : α → Nat) {node : α} (listed : node ∈ nodes) {seen : List α}
    (new : node ∉ seen) :
    unmetCost cost nodes (node :: seen) + cost node ≤ unmetCost cost nodes seen := by
  induction nodes with
  | nil => simp at listed
  | cons first rest ih =>
    rw [unmetCost_cons, unmetCost_cons]
    by_cases same : first = node
    · subst same
      have fewer : unmetCost cost rest (first :: seen) ≤ unmetCost cost rest seen :=
        unmetCost_mono cost (fun other member => List.mem_cons_of_mem first member) rest
      simp only [List.contains_eq_mem, List.mem_cons, true_or, new, decide_true, decide_false,
        if_true, Bool.false_eq_true, if_false]
      omega
    · have less := ih ((List.mem_cons.mp listed).resolve_left (Ne.symm same))
      have kept : (node :: seen).contains first = seen.contains first := by simp [same]
      rw [kept]
      omega

/-! Depth-first search. -/

def Descends (next : α → List α) (steps : Nat) (found : Visit α) (stack : List (α × Nat))
    (later : Visit α) (rest : List (α × Nat)) : Prop :=
  ∀ fuel, descend? next (fuel + steps) found stack = descend? next fuel later rest

omit [LawfulBEq α] in
theorem Descends.trans {first second : Nat} {found middle later : Visit α}
    {stack between rest : List (α × Nat)} (one : Descends next first found stack middle between)
    (two : Descends next second middle between later rest) :
    Descends next (second + first) found stack later rest :=
  fun fuel => by rw [← Nat.add_assoc, one, two]

def unmetWork (next : α → List α) (nodes : List α) (found : Visit α) : Nat :=
  unmetCost (fun node => (next node).length + 1) nodes found.seen

/-- From the node on top of the stack, the search goes through its further successors as the
recursion does, and finishes with it. -/
theorem exists_descends (closed : ∀ node ∈ nodes, ∀ other ∈ next node, other ∈ nodes) {depth : Nat}
    {found : Visit α} {node : α} (inside : node ∈ nodes) (enough : found.unseen nodes < depth)
    {items : List α} {tried : Nat} (further : (next node).drop tried = items)
    (stack : List (α × Nat)) :
    ∃ steps, Descends next steps found ((node, tried) :: stack)
        ⟨(items.foldl (visit next depth) found).seen,
          node :: (items.foldl (visit next depth) found).order⟩ stack ∧
      steps + unmetWork next nodes (items.foldl (visit next depth) found) ≤
        unmetWork next nodes found + items.length + 1 := by
  -- the outer induction goes down into a successor that has not been met, the inner one on to the
  -- successor after it
  induction depth generalizing found node items tried stack with
  | zero => omega
  | succ depth outer =>
    induction items generalizing found tried with
    | nil =>
      have done : (next node)[tried]? = none :=
        List.getElem?_eq_none (List.drop_eq_nil_iff.mp further)
      refine ⟨1, fun fuel => ?_, by simp only [List.foldl_nil, List.length_nil]; omega⟩
      simp only [descend?, done, List.foldl_nil]
    | cons other rest inner =>
      have here : (next node)[tried]? = some other := by
        rw [← Nat.add_zero tried, ← List.getElem?_drop, further]
        rfl
      have later : (next node).drop (tried + 1) = rest := by
        rw [← List.drop_drop, further, List.drop_one, List.tail_cons]
      have listed : other ∈ nodes := closed node inside other (List.mem_of_getElem? here)
      by_cases met : found.seen.contains other
      · have same : visit next (depth + 1) found other = found := by rw [visit, if_pos met]
        obtain ⟨steps, descends, within⟩ := inner enough later
        rw [List.foldl_cons, same]
        refine ⟨steps + 1, fun fuel => ?_, by simp only [List.length_cons]; omega⟩
        rw [← descends fuel, ← Nat.add_assoc]
        simp only [descend?, here, met, if_true]
      · have new : other ∉ found.seen := by simpa using met
        let start : Visit α := ⟨other :: found.seen, found.order⟩
        let deeper := (next other).foldl (visit next depth) start
        have same : visit next (depth + 1) found other = ⟨deeper.seen, other :: deeper.order⟩ := by
          rw [visit, if_neg met]
        have less : start.unseen nodes < found.unseen nodes := Visit.unseen_cons_lt listed new
        have fewer : start.unseen nodes < depth := by omega
        obtain ⟨one, down, first⟩ := outer listed fewer List.drop_zero ((node, tried + 1) :: stack)
        have first : one + unmetWork next nodes deeper ≤ unmetWork next nodes start +
            (next other).length + 1 := first
        have grows : found.Grows next (visit next (depth + 1) found other) :=
          (grows_visit closed listed enough).1
        have still : (visit next (depth + 1) found other).unseen nodes < depth + 1 :=
          Nat.lt_of_le_of_lt grows.unseen_le enough
        obtain ⟨two, on, second⟩ := inner still later
        have cost : unmetWork next nodes start + ((next other).length + 1) ≤
            unmetWork next nodes found :=
          unmetCost_cons_le _ listed new
        rw [same] at on second
        rw [List.foldl_cons, same]
        refine ⟨two + one + 1, fun fuel => ?_, ?_⟩
        · rw [← (Descends.trans down on) fuel, ← Nat.add_assoc]
          simp only [descend?, here, met]
          rfl
        · have unchanged : unmetWork next nodes ⟨deeper.seen, other :: deeper.order⟩ =
              unmetWork next nodes deeper := rfl
          simp only [List.length_cons]
          omega

theorem descend?_eq (closed : ∀ node ∈ nodes, ∀ other ∈ next node, other ∈ nodes) {root : α}
    (inside : root ∈ nodes) {depth : Nat} (deep : nodes.length < depth) {fuel : Nat}
    (enough : (nodes.flatMap next).length + nodes.length ≤ fuel) :
    descend? next fuel ⟨[root], []⟩ [(root, 0)] = some (closure next depth [] [root]) := by
  obtain ⟨depth, rfl⟩ : ∃ less, depth = less + 1 := ⟨depth - 1, by omega⟩
  let start : Visit α := ⟨[root], []⟩
  have less : start.unseen nodes < Visit.unseen nodes ⟨[], []⟩ :=
    Visit.unseen_cons_lt inside (show root ∉ (⟨[], []⟩ : Visit α).seen from List.not_mem_nil)
  have all : Visit.unseen nodes ⟨[], []⟩ ≤ nodes.length := List.countP_le_length
  obtain ⟨steps, descends, within⟩ :=
    exists_descends closed inside (show start.unseen nodes < depth by omega) List.drop_zero []
  have cost : unmetWork next nodes start + ((next root).length + 1) ≤
      unmetWork next nodes ⟨[], []⟩ :=
    unmetCost_cons_le _ inside List.not_mem_nil
  have total : unmetWork next nodes ⟨[], []⟩ = (nodes.flatMap next).length + nodes.length := by
    rw [unmetWork, unmetCost_succ, unmetCost_length]
  have split : fuel = fuel - steps + steps := by omega
  rw [split, descends, descend?]
  simp only [closure, List.foldl_cons, List.foldl_nil, visit, List.contains_nil,
    Bool.false_eq_true, if_false]
  rfl

/-! The search that keeps a stack of nodes. -/

theorem gather?_isSome (closed : ∀ node ∈ nodes, ∀ other ∈ next node, other ∈ nodes) {fuel : Nat}
    {found stack : List α} (inside : ∀ node ∈ stack, node ∈ nodes)
    (enough : stack.length + unmetCost (fun node => (next node).length) nodes found ≤ fuel) :
    ∃ result, gather? next fuel found stack = some result := by
  induction fuel generalizing found stack with
  | zero =>
    obtain rfl : stack = [] := List.eq_nil_of_length_eq_zero (by omega)
    exact ⟨found, rfl⟩
  | succ fuel ih =>
    cases stack with
    | nil => exact ⟨found, rfl⟩
    | cons node rest =>
      obtain ⟨here, later⟩ := List.forall_mem_cons.mp inside
      rw [List.length_cons] at enough
      unfold gather?
      split
      · exact ih later (by omega)
      · rename_i unmet
        have cost := unmetCost_cons_le (fun node => (next node).length) here
          (show node ∉ found by simpa using unmet)
        refine ih (fun other listed => ?_)
          (by simp only [List.length_append, List.length_reverse]; omega)
        rcases List.mem_append.mp listed with leads | waiting
        · exact closed node here other (List.mem_reverse.mp leads)
        · exact later other waiting

theorem gather?_induction {motive : List α → List α → Prop} {result : List α}
    (done : motive result [])
    (met : ∀ found node stack, node ∈ found → motive found stack → motive found (node :: stack))
    (new : ∀ found node stack, node ∉ found →
      motive (node :: found) ((next node).reverse ++ stack) →
      motive found (node :: stack))
    {fuel : Nat} {found stack : List α} (ends : gather? next fuel found stack = some result) :
    motive found stack := by
  induction fuel generalizing found stack with
  | zero =>
    cases stack with
    | nil => exact Option.some.inj ends ▸ done
    | cons node rest => simp [gather?] at ends
  | succ fuel ih =>
    cases stack with
    | nil => exact Option.some.inj ends ▸ done
    | cons node rest =>
      unfold gather? at ends
      split at ends
      · rename_i known
        exact met found node rest (by simpa using known) (ih ends)
      · rename_i unmet
        exact new found node rest (by simpa using unmet) (ih ends)

theorem gather?_closed {fuel : Nat} {found stack result : List α}
    (ends : gather? next fuel found stack = some result) :
    (∀ node ∈ found, node ∈ result) ∧ (∀ node ∈ stack, node ∈ result) ∧
      ∀ node ∈ result, node ∉ found → ∀ other ∈ next node, other ∈ result := by
  refine gather?_induction (motive := fun found stack =>
    (∀ node ∈ found, node ∈ result) ∧ (∀ node ∈ stack, node ∈ result) ∧
      ∀ node ∈ result, node ∉ found → ∀ other ∈ next node, other ∈ result) ?_ ?_ ?_ ends
  · exact ⟨fun _ member => member, nofun, fun _ member new => absurd member new⟩
  · rintro found node stack known ⟨kept, waiting, further⟩
    exact ⟨kept, List.forall_mem_cons.mpr ⟨kept node known, waiting⟩, further⟩
  · rintro found node stack _ ⟨kept, waiting, further⟩
    obtain ⟨here, kept⟩ := List.forall_mem_cons.mp kept
    obtain ⟨leads, waiting⟩ := List.forall_mem_append.mp waiting
    refine ⟨kept, List.forall_mem_cons.mpr ⟨here, waiting⟩, fun other member new => ?_⟩
    by_cases same : other = node
    · exact fun target edge => leads target (List.mem_reverse.mpr (same ▸ edge))
    · exact further other member fun listed => (List.mem_cons.mp listed).elim same new

/-- What holds of the stack, and passes on to what its nodes lead to past the given ones, holds of
all that is found. -/
theorem forall_mem_gather? {holds : α → Prop} {fuel : Nat} {found stack result : List α}
    (ends : gather? next fuel found stack = some result)
    (start : ∀ node ∈ stack, node ∉ found → holds node)
    (step : ∀ node, holds node → ∀ other ∈ next node, other ∉ found → holds other) :
    ∀ node ∈ result, node ∉ found → holds node := by
  refine gather?_induction
    (motive := fun found stack => (∀ node ∈ stack, node ∉ found → holds node) →
    (∀ node, holds node → ∀ other ∈ next node, other ∉ found → holds other) →
    ∀ node ∈ result, node ∉ found → holds node) ?_ ?_ ?_ ends start step
  · exact fun _ _ _ member new => absurd member new
  · exact fun found node stack _ ih start => ih (List.forall_mem_cons.mp start).2
  · intro found node stack unmet ih start step
    obtain ⟨here, later⟩ := List.forall_mem_cons.mp start
    have known := here unmet
    have further := ih (fun other listed new => ?_) fun upper holds other leads new =>
      step upper holds other leads fun listed => new (List.mem_cons_of_mem node listed)
    · intro other member new
      by_cases same : other = node
      · exact same ▸ known
      · exact further other member fun listed => (List.mem_cons.mp listed).elim same new
    · have outside : other ∉ found := fun listed => new (List.mem_cons_of_mem node listed)
      rcases List.mem_append.mp listed with leads | waiting
      · exact step node known other (List.mem_reverse.mp leads) outside
      · exact later other waiting outside

theorem nodup_gather? {fuel : Nat} {found stack result : List α}
    (ends : gather? next fuel found stack = some result) (nodup : found.Nodup) : result.Nodup :=
  gather?_induction (motive := fun found _ => found.Nodup → result.Nodup) id (fun _ _ _ _ ih => ih)
    (fun _ _ _ unmet ih nodup => ih (List.nodup_cons.mpr ⟨unmet, nodup⟩)) ends nodup

theorem mem_gather?_iff {fuel : Nat} {found stack result : List α}
    (ends : gather? next fuel found stack = some result) {node : α} :
    node ∈ result ↔ node ∈ found ∨ ∃ root ∈ stack, root ∉ found ∧
      Relation.ReflTransGen (fun source target => target ∈ next source ∧ target ∉ found)
        root node := by
  obtain ⟨kept, waiting, closed⟩ := gather?_closed ends
  constructor
  · have sound : ∀ node ∈ result, node ∉ found → ∃ root ∈ stack, root ∉ found ∧
        Relation.ReflTransGen (fun source target => target ∈ next source ∧ target ∉ found)
          root node := by
      refine forall_mem_gather? ends (fun root listed new => ⟨root, listed, new, .refl⟩) ?_
      rintro source ⟨root, listed, new, path⟩ other leads outside
      exact ⟨root, listed, new, path.tail ⟨leads, outside⟩⟩
    intro member
    by_cases old : node ∈ found
    · exact .inl old
    · exact .inr (sound node member old)
  · rintro (old | ⟨root, listed, new, path⟩)
    · exact kept node old
    · suffices reached : node ∈ result ∧ node ∉ found from reached.1
      induction path with
      | refl => exact ⟨waiting root listed, new⟩
      | tail _ edge ih => exact ⟨closed _ ih.1 ih.2 _ edge.1, edge.2⟩

end Reach

end Covenant
