import Covenant.Proofs.Code.Reach
import Mathlib.Logic.Relation

/-!
The order in which depth-first search gives the nodes. A node comes before those that it leads to,
except for those that the search is in when it comes to the node; and of these the node can be
reached. If every way that leads back leads to a node that dominates where it starts, and all other
ways lead up, only the ways that lead back are such exceptions.
-/

namespace Covenant

namespace Reach

variable {α : Type}

def Ordered (next : α → List α) (back : α → α → Prop) : List α → Prop
  | [] => True
  | node :: rest =>
    node ∉ rest ∧ (∀ other ∈ next node, back node other ∨ other ∈ rest) ∧ Ordered next back rest

theorem Ordered.mono {next : α → List α} {back other : α → α → Prop} {order : List α}
    (ordered : Ordered next back order)
    (wider : ∀ node ∈ order, ∀ target ∈ next node, back node target → other node target) :
    Ordered next other order := by
  induction order with
  | nil => trivial
  | cons node rest ih =>
    obtain ⟨new, edges, further⟩ := ordered
    obtain ⟨here, later⟩ := List.forall_mem_cons.mp wider
    exact ⟨new, fun target leads => (edges target leads).imp_left (here target leads),
      ih further later⟩

theorem Ordered.nodup {next : α → List α} {back : α → α → Prop} {order : List α}
    (ordered : Ordered next back order) :
    order.Nodup := by
  induction order with
  | nil => exact List.nodup_nil
  | cons node rest ih => exact List.nodup_cons.mpr ⟨ordered.1, ih ordered.2.2⟩

theorem Ordered.idxOf_lt [BEq α] [LawfulBEq α] {next : α → List α} {back : α → α → Prop}
    {order : List α} (ordered : Ordered next back order) {node other : α} (member : node ∈ order)
    (leads : other ∈ next node) (onward : ¬ back node other) :
    other ∈ order ∧ order.idxOf node < order.idxOf other := by
  induction order with
  | nil => simp at member
  | cons first rest ih =>
    obtain ⟨new, edges, further⟩ := ordered
    rcases List.mem_cons.mp member with rfl | later
    · have there := (edges other leads).resolve_left onward
      have apart : (node == other) = false := beq_false_of_ne fun same => new (same ▸ there)
      refine ⟨List.mem_cons_of_mem node there, ?_⟩
      simp [List.idxOf_cons, apart]
    · obtain ⟨there, lower⟩ := ih further later
      have apart : (first == node) = false := beq_false_of_ne fun same => new (same ▸ later)
      have beyond : (first == other) = false := beq_false_of_ne fun same => new (same ▸ there)
      refine ⟨List.mem_cons_of_mem first there, ?_⟩
      simpa [List.idxOf_cons, apart, beyond] using lower

structure Visit.Sorted (next : α → List α) (back : α → α → Prop) (found : Visit α) : Prop where
  order : Ordered next back found.order
  seen : ∀ node ∈ found.order, node ∈ found.seen

/-- What is known when a search comes to a node: what it has met suffices to enter the node, and how
the nodes that it is in lie to that one. A search goes back to nothing but the nodes that it is in.
-/
structure Discipline (next : α → List α) (nodes : List α) (enters : List α → α → Prop)
    (opens back : α → α → Prop) :
    Prop where
  keep : ∀ seen later node, (∀ other ∈ seen, other ∈ later) → enters seen node → enters later node
  enter : ∀ node ∈ nodes, ∀ other ∈ next node, ∀ seen, node ∈ seen → enters seen node →
    enters seen other
  here : ∀ node ∈ nodes, ∀ other ∈ next node, ∀ seen, node ∈ seen → enters seen node →
    other ∉ seen → opens node other
  further : ∀ upper node other, opens upper node → opens node other → opens upper other
  self : ∀ node ∈ nodes, back node node
  leads : ∀ node ∈ nodes, ∀ other ∈ next node, opens other node → back node other

variable [BEq α] [LawfulBEq α] {next : α → List α} {nodes : List α} {enters : List α → α → Prop}
  {opens back : α → α → Prop}

theorem Discipline.sorted_visit (discipline : Discipline next nodes enters opens back)
    (closed : ∀ node ∈ nodes, ∀ other ∈ next node, other ∈ nodes) {fuel : Nat} {found : Visit α}
    {node : α} (inside : node ∈ nodes) (enough : found.unseen nodes < fuel)
    (sorted : found.Sorted next back) (above : enters found.seen node)
    (below : node ∉ found.seen → ∀ other ∈ found.seen, other ∈ found.order ∨ opens other node) :
    (visit next fuel found node).Sorted next back := by
  induction fuel generalizing found node with
  | zero => exact sorted
  | succ fuel ih =>
    unfold visit
    split
    · exact sorted
    · rename_i unmet
      have new : node ∉ found.seen := by simpa using unmet
      have less := Visit.unseen_cons_lt inside new
      let start : Visit α := ⟨node :: found.seen, found.order⟩
      have fewer : start.unseen nodes < fuel := by
        have bound : Visit.unseen nodes start < found.unseen nodes := less
        omega
      have started : start.Sorted next back :=
        ⟨sorted.order, fun other listed => List.mem_cons_of_mem node (sorted.seen other listed)⟩
      -- what was met before `node` and is not finished with is what the search is in, and so is
      -- `node`
      have kept (later : Visit α) (held : start.Grows next later ∧ later.Sorted next back)
          (item : α)
          (leads : item ∈ next node) : start.Grows next (visit next fuel later item) ∧
            (visit next fuel later item).Sorted next back := by
        obtain ⟨grows, held⟩ := held
        have enough : later.unseen nodes < fuel := Nat.lt_of_le_of_lt grows.unseen_le fewer
        have there := closed node inside item leads
        have met := grows.seen node List.mem_cons_self
        have entered := discipline.keep found.seen later.seen node
          (fun other listed => grows.seen other (List.mem_cons_of_mem node listed)) above
        refine ⟨grows.trans (grows_visit closed there enough).1,
          ih there enough held (discipline.enter node inside item leads later.seen met entered)
            fun unseen other known => ?_⟩
        have here := discipline.here node inside item leads later.seen met entered unseen
        by_cases old : other ∈ start.seen
        · rcases List.mem_cons.mp old with rfl | earlier
          · exact .inr here
          · exact (below new other earlier).imp (grows.finished other) fun opens =>
              discipline.further other node item opens here
        · exact .inl (grows.fresh other known old).1
      obtain ⟨grows, met⟩ :=
        grows_foldl (fun listed low => grows_visit closed listed low) (closed node inside) fewer
      have held := (List.foldlRecOn (next node) (visit next fuel) ⟨.refl start, started⟩ kept).2
      have here := grows.seen node List.mem_cons_self
      refine ⟨⟨?_, ?_, held.order⟩, ?_⟩
      · intro finished
        rcases grows.order node finished with before | ⟨_, fresh⟩
        · exact new (sorted.seen node before)
        · exact fresh List.mem_cons_self
      · intro other leads
        by_cases old : other ∈ start.seen
        · rcases List.mem_cons.mp old with rfl | earlier
          · exact .inl (discipline.self other inside)
          · rcases below new other earlier with finished | opens
            · exact .inr (grows.finished other finished)
            · exact .inl (discipline.leads node inside other leads opens)
        · exact .inr (grows.fresh other (met other leads) old).1
      · intro other listed
        rcases List.mem_cons.mp listed with rfl | finished
        · exact here
        · exact held.seen other finished

theorem Discipline.ordered_closure (discipline : Discipline next nodes enters opens back)
    (closed : ∀ node ∈ nodes, ∀ other ∈ next node, other ∈ nodes) {fuel : Nat}
    (enough : nodes.length < fuel) {root : α} (inside : root ∈ nodes) (start : enters [] root) :
    Ordered next back (closure next fuel [] [root]) := by
  have fewer : (Visit.mk ([] : List α) []).unseen nodes < fuel :=
    Nat.lt_of_le_of_lt List.countP_le_length enough
  exact (discipline.sorted_visit closed inside fewer ⟨trivial, nofun⟩ start nofun).order

omit [BEq α] [LawfulBEq α] in
theorem discipline_of_ways (next : α → List α) (nodes : List α) :
    Discipline next nodes (fun _ _ => True)
      (Relation.ReflTransGen fun source target => target ∈ next source) fun start other =>
      Relation.ReflTransGen (fun source target => target ∈ next source) other start where
  keep _ _ _ _ _ := trivial
  enter _ _ _ _ _ _ _ := trivial
  here _ _ _ leads _ _ _ _ := .single leads
  further _ _ _ := .trans
  self _ _ := .refl
  leads _ _ _ _ opens := opens

structure Reducible (next : α → List α) (nodes : List α) (root : α) (dominates : α → α → Prop)
    (rank : α → Nat) :
    Prop where
  refl : ∀ node, dominates node node
  root : ∀ node, dominates node root → node = root
  edge : ∀ node ∈ nodes, ∀ other ∈ next node, ∀ upper, dominates upper other → upper = other ∨
    dominates upper node
  climbs : ∀ node ∈ nodes, ∀ other ∈ next node, dominates other node ∨ rank node < rank other

omit [BEq α] [LawfulBEq α] in
theorem Reducible.discipline {root : α} {dominates : α → α → Prop} {rank : α → Nat}
    (reducible : Reducible next nodes root dominates rank) :
    Discipline next nodes (fun seen node => ∀ upper, dominates upper node → upper = node ∨
      upper ∈ seen) (fun upper node => rank upper < rank node) fun start other =>
        dominates other start where
  keep _ _ _ wider above upper dominating := (above upper dominating).imp_right (wider upper)
  enter node inside other leads seen met above upper dominating := by
    refine (reducible.edge node inside other leads upper dominating).imp_right fun here => ?_
    rcases above upper here with rfl | known
    · exact met
    · exact known
  here node inside other leads seen met above unseen := by
    refine (reducible.climbs node inside other leads).resolve_left fun back => unseen ?_
    rcases above other back with rfl | known
    · exact met
    · exact known
  further _ _ _ := Nat.lt_trans
  self node _ := reducible.refl node
  leads node inside other leads lower :=
    (reducible.climbs node inside other leads).resolve_right (Nat.lt_asymm lower)

/-! Where the search comes from. -/

def Led (next : α → List α) (starts : α → Prop) : List α → Prop
  | [] => True
  | node :: rest => starts node ∧ Led next (fun other => starts other ∨ other ∈ next node) rest

omit [BEq α] [LawfulBEq α] in
theorem Led.mono {starts wider : α → Prop} {order : List α} (led : Led next starts order)
    (wide : ∀ node, starts node → wider node) : Led next wider order := by
  induction order generalizing starts wider with
  | nil => trivial
  | cons node rest ih => exact ⟨wide node led.1, ih led.2 fun other => Or.imp_left (wide other)⟩

omit [LawfulBEq α] in
theorem led_visit {starts : α → Prop} {fuel : Nat} {found : Visit α} {node : α}
    (led : Led next starts found.order) (start : starts node) :
    Led next starts (visit next fuel found node).order := by
  induction fuel generalizing starts found node with
  | zero => exact led
  | succ fuel ih =>
    unfold visit
    split
    · exact led
    · let within (later : Visit α) :=
        Led next (fun other => starts other ∨ other ∈ next node) later.order
      have begun : within ⟨node :: found.seen, found.order⟩ := led.mono fun _ => .inl
      exact ⟨start, List.foldlRecOn (motive := within) (next node) (visit next fuel) begun
        fun later held item leads => ih held (.inr leads)⟩

theorem Led.idxOf_lt {starts : α → Prop} {order : List α} (led : Led next starts order) {node : α}
    (member : node ∈ order) (further : ¬ starts node) :
    ∃ other ∈ order, node ∈ next other ∧ order.idxOf other < order.idxOf node := by
  induction order generalizing starts with
  | nil => simp at member
  | cons first rest ih =>
    have apart : first ≠ node := fun same => further (same ▸ led.1)
    have behind : (first :: rest).idxOf node = rest.idxOf node + 1 := by
      simp [List.idxOf_cons, beq_false_of_ne apart]
    by_cases leads : node ∈ next first
    · exact ⟨first, List.mem_cons_self, leads, by simp [behind]⟩
    · obtain ⟨other, listed, edge, earlier⟩ :=
        ih led.2 ((List.mem_cons.mp member).resolve_left (Ne.symm apart))
          (not_or.mpr ⟨further, leads⟩)
      refine ⟨other, List.mem_cons_of_mem first listed, edge, ?_⟩
      rw [behind, List.idxOf_cons]
      cases first == other
      · exact Nat.succ_lt_succ earlier
      · exact Nat.succ_pos _

end Reach

end Covenant
