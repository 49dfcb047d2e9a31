import Covenant.Code.FlowGraph
import Mathlib.Data.List.Basic

/-!
Trees of dominators as they are while dominators are being found. Parents come earlier in reverse
postorder, so the blocks above a block form a chain that ends at the entry, and two blocks have a
closest block above both: going up from the later of two blocks again and again comes to it.
-/

namespace Covenant

namespace DominatorTree

def Known (tree : DominatorTree) (block : BlockId) : Prop :=
  ∃ upper, tree.parent? block = some upper

inductive Above (tree : DominatorTree) (upper : BlockId) : BlockId → Prop
  | refl : Above tree upper upper
  | step {block parent : BlockId} : tree.parent? block = some parent → parent ≠ block →
      Above tree upper parent →
      Above tree upper block

structure Rooted (tree : DominatorTree) (entry : BlockId) : Prop where
  root : tree.parent? entry = some entry
  first : tree.order.head? = some entry
  known : ∀ block, tree.Known block → block ∈ tree.order
  rises : ∀ block upper, tree.parent? block = some upper → block ≠ entry →
    tree.Known upper ∧ tree.place upper < tree.place block

structure Meets (tree : DominatorTree) (among : BlockId → Prop) (common : BlockId) : Prop where
  known : tree.Known common
  above : ∀ block, among block → tree.Above common block
  closest : ∀ upper, (∀ block, among block → tree.Above upper block) → tree.Above upper common

variable {tree : DominatorTree} {entry upper middle block other : BlockId}

theorem Above.trans (first : tree.Above upper middle) (second : tree.Above middle block) :
    tree.Above upper block := by
  induction second with
  | refl => exact first
  | step parent apart _ ih => exact .step parent apart ih

theorem Above.of_parent (above : tree.Above upper block) (apart : upper ≠ block) {parent : BlockId}
    (found : tree.parent? block = some parent) : tree.Above upper parent := by
  cases above with
  | refl => exact absurd rfl apart
  | step other _ above => exact Option.some.inj (other.symm.trans found) ▸ above

namespace Rooted

theorem place_entry (rooted : tree.Rooted entry) : tree.place entry = 0 := by
  obtain ⟨rest, order⟩ := List.head?_eq_some_iff.mp rooted.first
  simp [place, order]

theorem place_lt (rooted : tree.Rooted entry) (known : tree.Known block) :
    tree.place block < tree.order.length :=
  List.idxOf_lt_length_of_mem (rooted.known block known)

theorem eq_of_place_eq (rooted : tree.Rooted entry) (known : tree.Known block)
    (same : tree.place block = tree.place other) : block = other :=
  (List.idxOf_inj (rooted.known block known)).mp same

theorem known_entry (rooted : tree.Rooted entry) : tree.Known entry := ⟨entry, rooted.root⟩

theorem known_of_above (rooted : tree.Rooted entry) (above : tree.Above upper block)
    (known : tree.Known block) :
    tree.Known upper := by
  induction above with
  | refl => exact known
  | @step block parent found apart _ ih =>
    refine ih (rooted.rises block parent found fun same => apart ?_).1
    rw [same, rooted.root] at found
    rw [same, Option.some.inj found]

theorem place_le (rooted : tree.Rooted entry) (above : tree.Above upper block) :
    tree.place upper ≤ tree.place block := by
  induction above with
  | refl => exact Nat.le_refl _
  | @step block parent found apart _ ih =>
    by_cases same : block = entry
    · rw [same, rooted.root] at found
      exact absurd (same.trans (Option.some.inj found)).symm apart
    · exact Nat.le_trans ih (Nat.le_of_lt (rooted.rises block parent found same).2)

theorem antisymm (rooted : tree.Rooted entry) (known : tree.Known upper)
    (above : tree.Above upper block) (below : tree.Above block upper) : upper = block :=
  rooted.eq_of_place_eq known (Nat.le_antisymm (rooted.place_le above) (rooted.place_le below))

theorem linear (one : tree.Above upper block) (two : tree.Above other block) :
    tree.Above upper other ∨ tree.Above other upper := by
  induction two with
  | refl => exact .inl one
  | @step block parent found apart two ih =>
    by_cases same : upper = block
    · exact .inr (same ▸ .step found apart two)
    · exact ih (one.of_parent same found)

theorem induction_up (rooted : tree.Rooted entry) {motive : BlockId → Prop} (start : motive entry)
    (step : ∀ block parent, block ≠ entry → tree.parent? block = some parent → tree.Known parent →
      motive parent →
      motive block)
    (known : tree.Known block) : motive block := by
  induction height : tree.place block using Nat.strongRecOn generalizing block with
  | ind height ih =>
    by_cases root : block = entry
    · exact root ▸ start
    · obtain ⟨parent, found⟩ := known
      obtain ⟨known, lower⟩ := rooted.rises block parent found root
      exact step block parent root found known (ih _ (height ▸ lower) known rfl)

theorem exists_parent (rooted : tree.Rooted entry) (known : tree.Known block)
    (later : tree.place other < tree.place block) :
    ∃ parent, tree.parent? block = some parent ∧ parent ≠ block ∧
      tree.Known parent ∧ tree.place parent < tree.place block := by
  obtain ⟨parent, found⟩ := known
  have below : block ≠ entry := by
    rintro rfl
    rw [rooted.place_entry] at later
    omega
  obtain ⟨known, lower⟩ := rooted.rises block parent found below
  exact ⟨parent, found, fun same => Nat.lt_irrefl _ (same ▸ lower), known, lower⟩

end Rooted

/-! The closest block above others. -/

theorem Meets.congr {among others : BlockId → Prop} (meets : tree.Meets among block)
    (same : ∀ block, among block ↔ others block) : tree.Meets others block where
  known := meets.known
  above block member := meets.above block ((same block).mpr member)
  closest upper above := meets.closest upper fun block member =>
    above block ((same block).mp member)

theorem Meets.of_parent {parent common : BlockId}
    (meets : tree.Meets (fun each => each = parent ∨ each = other) common)
    (rooted : tree.Rooted entry) (found : tree.parent? block = some parent)
    (apart : parent ≠ block) (later : tree.place other < tree.place block) :
    tree.Meets (fun each => each = block ∨ each = other) common where
  known := meets.known
  above := by
    rintro each (rfl | rfl)
    · exact .step found apart (meets.above parent (.inl rfl))
    · exact meets.above each (.inr rfl)
  closest := by
    intro upper above
    have lower := rooted.place_le (above other (.inr rfl))
    refine meets.closest upper ?_
    rintro each (rfl | rfl)
    · refine (above block (.inl rfl)).of_parent ?_ found
      rintro rfl
      omega
    · exact above each (.inr rfl)

namespace Rooted

theorem meet?_eq (rooted : tree.Rooted entry) {left right : BlockId} (known : tree.Known left)
    (also : tree.Known right) {fuel : Nat} (enough : tree.place left + tree.place right < fuel) :
    ∃ common, tree.meet? fuel left right = some common ∧
      tree.Meets (fun each => each = left ∨ each = right) common := by
  induction fuel generalizing left right with
  | zero => omega
  | succ fuel ih =>
    unfold meet?
    by_cases same : left = right
    · subst same
      refine ⟨left, by simp, known, fun each among => ?_, fun upper above => above left (.inl rfl)⟩
      rcases among with rfl | rfl <;> exact .refl
    rw [if_neg (by simpa using same)]
    rcases Nat.lt_trichotomy (tree.place left) (tree.place right) with lower | equal | lower
    · obtain ⟨parent, found, apart, further, less⟩ := rooted.exists_parent also lower
      obtain ⟨common, answer, meets⟩ := ih known further (by omega)
      rw [if_neg (by omega), if_pos lower, found]
      refine ⟨common, by simpa [apart] using answer, ?_⟩
      have swapped := (meets.congr fun each => Or.comm).of_parent rooted found apart lower
      exact swapped.congr fun each => Or.comm
    · exact absurd (rooted.eq_of_place_eq known equal) same
    · obtain ⟨parent, found, apart, further, less⟩ := rooted.exists_parent known lower
      obtain ⟨common, answer, meets⟩ := ih further also (by omega)
      rw [if_pos lower, found]
      exact ⟨common, by simpa [apart] using answer, meets.of_parent rooted found apart lower⟩

theorem exists_meetAll?_cons (rooted : tree.Rooted entry) {fuel : Nat}
    (enough : 2 * tree.order.length ≤ fuel) {among : BlockId → Prop} {found : Option BlockId}
    (start : ∀ common, found = some common → tree.Meets among common)
    (nothing : found = none → ∀ each, ¬ among each) (block : BlockId) (rest : List BlockId) :
    ∃ next, tree.meetAll? fuel found (block :: rest) = tree.meetAll? fuel next rest ∧
      (∀ common, next = some common →
        tree.Meets (fun each => among each ∨ each = block ∧ tree.Known each) common) ∧
      (next = none → ∀ each, ¬ (among each ∨ each = block ∧ tree.Known each)) := by
  cases parent : tree.parent? block with
  | none =>
    have same : ∀ each, among each ↔ among each ∨ each = block ∧ tree.Known each := by
      intro each
      refine ⟨.inl, fun member => member.resolve_right ?_⟩
      rintro ⟨rfl, _, found⟩
      simp [parent] at found
    exact ⟨found, by simp only [meetAll?, parent],
      fun common given => (start common given).congr same, fun given each =>
        (same each).not.mp (nothing given each)⟩
  | some upper =>
    have known : tree.Known block := ⟨upper, parent⟩
    cases found with
    | none =>
      refine ⟨some block, by simp only [meetAll?, parent], fun common given => ?_, nofun⟩
      obtain rfl := Option.some.inj given
      refine ⟨known, fun each member => ?_, fun upper above => above block (.inr ⟨rfl, known⟩)⟩
      obtain ⟨rfl, _⟩ := member.resolve_left (nothing rfl each)
      exact .refl
    | some current =>
      have meets := start current rfl
      have steps : tree.place block + tree.place current < fuel := by
        have low := rooted.place_lt known
        have also := rooted.place_lt meets.known
        omega
      obtain ⟨common, answer, meet⟩ := rooted.meet?_eq known meets.known steps
      refine ⟨some
        common, by simp only [meetAll?, parent, answer, Option.bind_eq_bind, Option.bind_some],
        fun other given => ?_, nofun⟩
      obtain rfl := Option.some.inj given
      refine ⟨meet.known, ?_, fun upper above => meet.closest upper ?_⟩
      · rintro each (member | ⟨rfl, _⟩)
        · exact (meet.above current (.inr rfl)).trans (meets.above each member)
        · exact meet.above each (.inl rfl)
      · rintro each (rfl | rfl)
        · exact above each (.inr ⟨rfl, known⟩)
        · exact meets.closest upper fun each member => above each (.inl member)

theorem meetAll?_eq (rooted : tree.Rooted entry) {fuel : Nat}
    (enough : 2 * tree.order.length ≤ fuel) {among : BlockId → Prop} {found : Option BlockId}
    (start : ∀ common, found = some common → tree.Meets among common)
    (nothing : found = none → ∀ each, ¬ among each) (blocks : List BlockId) :
    ∃ result, tree.meetAll? fuel found blocks = some result ∧
      (∀ common, result = some common →
        tree.Meets (fun each => among each ∨ each ∈ blocks ∧ tree.Known each) common) ∧
      (result = none → ∀ each, ¬ (among each ∨ each ∈ blocks ∧ tree.Known each)) := by
  induction blocks generalizing among found with
  | nil => exact ⟨found, rfl, by simpa using start, by simpa using nothing⟩
  | cons block rest ih =>
    obtain ⟨next, goes, later, none⟩ := rooted.exists_meetAll?_cons enough start nothing block rest
    obtain ⟨result, answer, meets, nowhere⟩ := ih later none
    have same : ∀ each,
        ((among each ∨ each = block ∧ tree.Known each) ∨ each ∈ rest ∧ tree.Known each) ↔
        (among each ∨ each ∈ block :: rest ∧ tree.Known each) := by
      intro each
      rw [List.mem_cons, or_and_right, or_assoc]
    exact ⟨result, goes.trans answer, fun common given => (meets common given).congr same,
      fun given each => (same each).not.mp (nowhere given each)⟩

/-! What is asked of a tree. -/

/-- Going up from a block that has a parent ends, and tells which blocks are above it. -/
theorem climbs?_eq (rooted : tree.Rooted entry) (upper : BlockId) (known : tree.Known block)
    {fuel : Nat} (enough : tree.place block < fuel) :
    ∃ answer, tree.climbs? upper fuel block = some answer ∧
      (answer = true ↔ tree.Above upper block) := by
  induction fuel generalizing block with
  | zero => omega
  | succ fuel ih =>
    unfold climbs?
    by_cases here : block = upper
    · subst here
      exact ⟨true, by simp, by simpa using Above.refl⟩
    rw [if_neg (by simpa using here)]
    obtain ⟨parent, found⟩ := known
    by_cases same : parent = block
    · have none : tree.immediate? block = none := by simp [immediate?, found, same]
      rw [none]
      refine ⟨false, rfl, nofun, fun above => ?_⟩
      cases above with
      | refl => exact absurd rfl here
      | step other apart _ =>
        exact absurd ((Option.some.inj (other.symm.trans found)).trans same) apart
    · have some : tree.immediate? block = some parent := by simp [immediate?, found, same]
      have below : block ≠ entry := by
        rintro rfl
        exact same (Option.some.inj (found.symm.trans rooted.root))
      obtain ⟨known, lower⟩ := rooted.rises block parent found below
      obtain ⟨answer, ends, tells⟩ := ih known (by omega)
      rw [some]
      exact ⟨answer, ends,
        tells.trans ⟨.step found same, fun above => above.of_parent (Ne.symm here) found⟩⟩

theorem dominates_iff (rooted : tree.Rooted entry)
    (known : ∀ block ∈ tree.order, tree.Known block) :
    tree.dominates upper block = true ↔ block ∈ tree.order ∧ tree.Above upper block := by
  rw [dominates, Bool.and_eq_true, List.contains_iff_mem]
  refine and_congr_right fun member => ?_
  obtain ⟨answer, ends, tells⟩ := rooted.climbs?_eq upper (known block member)
    (Nat.lt_succ_of_lt (rooted.place_lt (known block member)))
  rw [ends, Option.getD_some, tells]

end Rooted

end DominatorTree

end Covenant
