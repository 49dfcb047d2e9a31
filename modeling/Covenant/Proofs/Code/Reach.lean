import Covenant.Code.Reach

/-!
Depth-first search misses nothing: with fuel for all nodes, the nodes that it gives hold the roots
and the successors of each of them, as far as they are not barred. And it gives nothing else.
-/

namespace Covenant

namespace Reach

variable {α : Type} {next : α → List α} {nodes : List α}

namespace Visit

structure Grows (next : α → List α) (found later : Visit α) : Prop where
  seen : ∀ node ∈ found.seen, node ∈ later.seen
  order : ∀ node ∈ later.order, node ∈ found.order ∨ (node ∈ later.seen ∧ node ∉ found.seen)
  finished : ∀ node ∈ found.order, node ∈ later.order
  fresh : ∀ node ∈ later.seen, node ∉ found.seen → node ∈ later.order ∧ ∀ other ∈ next node,
    other ∈ later.seen

theorem Grows.refl (found : Visit α) : Grows next found found :=
  ⟨fun _ member => member, fun _ member => .inl member, fun _ member => member,
    fun _ member new => absurd member new⟩

theorem Grows.trans {first second third : Visit α} (one : Grows next first second)
    (two : Grows next second third) :
    Grows next first third where
  seen := fun node member => two.seen node (one.seen node member)
  order := by
    intro node member
    rcases two.order node member with earlier | ⟨met, new⟩
    · rcases one.order node earlier with before | ⟨met, new⟩
      · exact .inl before
      · exact .inr ⟨two.seen node met, new⟩
    · exact .inr ⟨met, fun old => new (one.seen node old)⟩
  finished := fun node member => two.finished node (one.finished node member)
  fresh := by
    intro node member new
    by_cases met : node ∈ second.seen
    · obtain ⟨done, successors⟩ := one.fresh node met new
      exact ⟨two.finished node done, fun other listed => two.seen other (successors other listed)⟩
    · exact two.fresh node member met

variable [BEq α] [LawfulBEq α]

def unseen (nodes : List α) (found : Visit α) : Nat :=
  nodes.countP fun node => !found.seen.contains node

theorem Grows.unseen_le {found later : Visit α} (grows : Grows next found later) :
    later.unseen nodes ≤ found.unseen nodes := by
  refine List.countP_mono_left fun node _ missing => ?_
  simp only [Bool.not_eq_true', List.contains_eq_mem, decide_eq_false_iff_not] at missing ⊢
  exact fun member => missing (grows.seen node member)

theorem unseen_cons_lt {found : Visit α} {node : α} (listed : node ∈ nodes)
    (new : node ∉ found.seen) :
    unseen nodes ⟨node :: found.seen, found.order⟩ < found.unseen nodes := by
  unfold unseen
  dsimp only
  induction nodes with
  | nil => simp at listed
  | cons first rest ih =>
    have fewer : rest.countP (fun other => !(node :: found.seen).contains other) ≤
        rest.countP fun other => !found.seen.contains other :=
      List.countP_mono_left fun other _ missing => by simp_all
    simp only [List.countP_cons]
    by_cases same : first = node
    · subst same
      simp only [List.contains_eq_mem, List.mem_cons, true_or, new, decide_true, decide_false,
        Bool.not_true, Bool.not_false, if_true, Bool.false_eq_true, if_false] at fewer ⊢
      omega
    · have there : node ∈ rest := (List.mem_cons.mp listed).resolve_left (Ne.symm same)
      have less := ih there
      have kept : (!(node :: found.seen).contains first) = !found.seen.contains first := by
        simp [same]
      rw [kept]
      omega

end Visit

def Visit.Sound (barred : List α) (holds : α → Prop) (found : Visit α) : Prop :=
  (∀ node ∈ barred, node ∈ found.seen) ∧ ∀ node ∈ found.order, holds node

theorem sound_foldl {barred : List α} {holds : α → Prop} {step : Visit α → α → Visit α}
    (visits : ∀ {found : Visit α} {node : α}, found.Sound barred holds →
      (node ∉ barred → holds node) →
      (step found node).Sound barred holds)
    {items : List α} (inside : ∀ item ∈ items, item ∉ barred → holds item) {found : Visit α}
    (sound : found.Sound barred holds) : (items.foldl step found).Sound barred holds := by
  induction items generalizing found with
  | nil => exact sound
  | cons item rest ih =>
    obtain ⟨here, others⟩ := List.forall_mem_cons.mp inside
    exact ih others (visits sound here)

variable [BEq α] [LawfulBEq α]

theorem grows_foldl {step : Visit α → α → Visit α} {bound : Nat}
    (visits : ∀ {found : Visit α} {node : α}, node ∈ nodes → found.unseen nodes < bound →
      found.Grows next (step found node) ∧ node ∈ (step found node).seen)
    {items : List α} (inside : ∀ item ∈ items, item ∈ nodes) {found : Visit α}
    (enough : found.unseen nodes < bound) :
    found.Grows next (items.foldl step found) ∧ ∀ item ∈ items,
      item ∈ (items.foldl step found).seen := by
  induction items generalizing found with
  | nil => exact ⟨.refl found, by simp⟩
  | cons item rest ih =>
    obtain ⟨grows, met⟩ := visits (inside item List.mem_cons_self) enough
    have fewer : (step found item).unseen nodes < bound := Nat.lt_of_le_of_lt grows.unseen_le enough
    obtain ⟨further, others⟩ :=
      ih (fun other member => inside other (List.mem_cons_of_mem item member)) fewer
    refine ⟨grows.trans further, ?_⟩
    intro other member
    rcases List.mem_cons.mp member with rfl | later
    · exact further.seen _ met
    · exact others other later

/-- A visit finishes with its node and with all that it meets, if the fuel suffices for the nodes
not met before. -/
theorem grows_visit (closed : ∀ node ∈ nodes, ∀ other ∈ next node, other ∈ nodes) {fuel : Nat}
    {found : Visit α} {node : α} (inside : node ∈ nodes) (enough : found.unseen nodes < fuel) :
    found.Grows next (visit next fuel found node) ∧ node ∈ (visit next fuel found node).seen := by
  induction fuel generalizing found node with
  | zero => omega
  | succ fuel ih =>
    unfold visit
    split
    · rename_i met
      exact ⟨.refl found, by simpa using met⟩
    · rename_i unmet
      have new : node ∉ found.seen := by simpa using unmet
      have less := Visit.unseen_cons_lt inside new
      have fewer : Visit.unseen nodes ⟨node :: found.seen, found.order⟩ < fuel := by omega
      obtain ⟨grows, met⟩ :=
        grows_foldl (fun listed low => ih listed low) (closed node inside) fewer
      have here := grows.seen node List.mem_cons_self
      refine ⟨⟨?_, ?_, ?_, ?_⟩, here⟩
      · exact fun other member => grows.seen other (List.mem_cons_of_mem node member)
      · intro other member
        rcases List.mem_cons.mp member with rfl | inner
        · exact .inr ⟨here, new⟩
        · rcases grows.order other inner with before | ⟨reached, fresh⟩
          · exact .inl before
          · exact .inr ⟨reached, fun old => fresh (List.mem_cons_of_mem node old)⟩
      · exact fun other member => List.mem_cons_of_mem node (grows.finished other member)
      · intro other member fresh
        by_cases same : other = node
        · exact ⟨same ▸ List.mem_cons_self, same ▸ met⟩
        · obtain ⟨done, successors⟩ := grows.fresh other member fun listed =>
            (List.mem_cons.mp listed).elim same fresh
          exact ⟨List.mem_cons_of_mem node done, successors⟩

theorem grows_closure (closed : ∀ node ∈ nodes, ∀ other ∈ next node, other ∈ nodes) {fuel : Nat}
    (enough : nodes.length < fuel) (barred : List α) {roots : List α}
    (inside : ∀ root ∈ roots, root ∈ nodes) :
    (Visit.mk barred []).Grows next (roots.foldl (visit next fuel) ⟨barred, []⟩) ∧
      ∀ root ∈ roots, root ∈ (roots.foldl (visit next fuel) ⟨barred, []⟩).seen :=
  grows_foldl (fun listed low => grows_visit closed listed low) inside
    (Nat.lt_of_le_of_lt List.countP_le_length enough)

theorem mem_closure_of_root (closed : ∀ node ∈ nodes, ∀ other ∈ next node, other ∈ nodes)
    {fuel : Nat} (enough : nodes.length < fuel) {barred roots : List α}
    (inside : ∀ root ∈ roots, root ∈ nodes) {root : α} (member : root ∈ roots)
    (free : root ∉ barred) : root ∈ closure next fuel barred roots := by
  obtain ⟨grows, met⟩ := grows_closure closed enough barred inside
  exact (grows.fresh root (met root member) free).1

theorem mem_closure_of_next (closed : ∀ node ∈ nodes, ∀ other ∈ next node, other ∈ nodes)
    {fuel : Nat} (enough : nodes.length < fuel) {barred roots : List α}
    (inside : ∀ root ∈ roots, root ∈ nodes) {node other : α}
    (reached : node ∈ closure next fuel barred roots) (leads : other ∈ next node)
    (free : other ∉ barred) :
    other ∈ closure next fuel barred roots := by
  obtain ⟨grows, _⟩ := grows_closure closed enough barred inside
  rcases grows.order node reached with none | ⟨met, new⟩
  · simp at none
  · have seen := (grows.fresh node met new).2 other leads
    exact (grows.fresh other seen free).1

theorem sound_visit {barred : List α} {holds : α → Prop}
    (step : ∀ node, holds node → ∀ other ∈ next node, other ∉ barred → holds other) {fuel : Nat}
    {found : Visit α} {node : α} (sound : found.Sound barred holds)
    (here : node ∉ barred → holds node) :
    (visit next fuel found node).Sound barred holds := by
  induction fuel generalizing found node with
  | zero => exact sound
  | succ fuel ih =>
    unfold visit
    split
    · exact sound
    · rename_i unmet
      have free : node ∉ barred := fun listed => unmet (by simpa using sound.1 node listed)
      have started : Visit.Sound barred holds ⟨node :: found.seen, found.order⟩ :=
        ⟨fun other listed => List.mem_cons_of_mem node (sound.1 other listed), sound.2⟩
      obtain ⟨kept, finished⟩ :=
        sound_foldl (fun held fits => ih held fits) (step node (here free)) started
      exact ⟨kept, List.forall_mem_cons.mpr ⟨here free, finished⟩⟩

theorem forall_mem_closure {fuel : Nat} {barred roots : List α} {holds : α → Prop}
    (start : ∀ root ∈ roots, root ∉ barred → holds root)
    (step : ∀ node, holds node → ∀ other ∈ next node, other ∉ barred → holds other) :
    ∀ node ∈ closure next fuel barred roots, holds node :=
  (sound_foldl (fun sound here => sound_visit step sound here) start
    ⟨fun _ listed => listed, by simp⟩).2

end Reach

end Covenant
