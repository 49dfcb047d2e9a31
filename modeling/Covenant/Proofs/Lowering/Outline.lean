import Covenant.Code.Instruction
import Mathlib.Tactic.SplitIfs

/-!
The ends of the blocks of a function while it is built. A part of a function adds edges from the
block that it starts in and from the blocks that it starts itself, and only to the latter. These
edges lead up, in some ranking of the blocks, or back to the block through which alone code comes to
where they start.
-/

namespace Covenant

structure Outline where
  ends : List (Option Terminator)
  current : BlockId

namespace Outline

def count (outline : Outline) : Nat := outline.ends.length

def withBlock (outline : Outline) : Outline := { outline with ends := outline.ends ++ [none] }

def moveTo (outline : Outline) (block : BlockId) : Outline := { outline with current := block }

def terminate (outline : Outline) (terminator : Terminator) : Outline :=
  { outline with
    ends := outline.ends.modify outline.current fun ended => ended.or (some terminator) }

def Ends (outline : Outline) (id : Nat) (terminator : Terminator) : Prop :=
  outline.ends[id]? = some (some terminator)

def Edge (outline : Outline) (source target : Nat) : Prop :=
  ∃ terminator, outline.Ends source terminator ∧ target ∈ terminator.successors

structure Sound (outline : Outline) : Prop where
  current : outline.current < outline.count
  edges : ∀ source target, outline.Edge source target → target < outline.count

structure OnlyFrom (outline : Outline) (low source target : Nat) : Prop where
  new : low ≤ target
  inside : target < outline.count
  edges : ∀ id, outline.Edge id target → id = source

structure FromOr (outline : Outline) (low source other target first last : Nat) : Prop where
  new : low ≤ target
  inside : target < outline.count
  range : low ≤ first ∧ last ≤ outline.count
  edges : ∀ id, outline.Edge id target → id = source ∨ id = other ∨ first ≤ id ∧ id < last
  behind : ∀ id inner, outline.Edge id inner → first ≤ inner → inner < last → id = other ∨
    first ≤ id ∧ id < last

def Separates (outline : Outline) (low id : Nat) : Terminator → Prop
  | .guard _ _ _ next => outline.OnlyFrom low id next
  | .branch _ thenBlock elseBlock =>
    (∃ first last, outline.FromOr low id elseBlock thenBlock first last) ∧
      ∃ first last, outline.FromOr low id thenBlock elseBlock first last
  | _ => True

structure Encloses (outline : Outline) (low header source body first last : Nat) : Prop where
  new : low ≤ header
  range : low ≤ body ∧ body < outline.count ∧ low ≤ first ∧ last ≤ outline.count
  inside : source = body ∨ first ≤ source ∧ source < last
  entered : ∀ id inner, outline.Edge id inner → inner = body ∨ first ≤ inner ∧ inner < last →
    id = header ∨ id = body ∨ first ≤ id ∧ id < last

def LeadsBack (outline : Outline) (heads : Nat → Prop) (low source target : Nat) : Prop :=
  heads target ∧ ∃ body first last, outline.Encloses low target source body first last

def Climbs (heads : Nat → Prop) (first last : Outline) (apart : Nat → Nat → Prop) : Prop :=
  ∃ (rank : Nat → Nat) (bound : Nat), (∀ id, first.count ≤ id → id < last.count → rank id < bound) ∧
    ∀ source target, last.Edge source target → first.Edge source target ∨ apart source target ∨
      rank source < rank target ∨ last.LeadsBack heads first.count source target

def Reducible (heads : Nat → Prop) (outline : Outline) : Prop :=
  ∃ rank : Nat → Nat, ∀ source target, outline.Edge source target →
    rank source < rank target ∨ outline.LeadsBack heads 1 source target

structure Develops (heads : Nat → Prop) (first last : Outline) : Prop where
  room : first.count ≤ last.count
  edges : ∀ source target, last.Edge source target → first.Edge source target ∨
    (source = first.current ∨ first.count ≤ source) ∧ first.count ≤ target ∧ target < last.count
  separates : ∀ id terminator, last.Ends id terminator →
    first.Ends id terminator ∨ last.Separates first.count id terminator
  climbs : first.Climbs heads last fun source _ => source = first.current
  current : last.current = first.current ∨ first.count ≤ last.current
  inside : last.current < last.count

structure Detours (heads : Nat → Prop) (start join : Nat) (first last : Outline) : Prop where
  room : first.count ≤ last.count
  edges : ∀ source target, last.Edge source target → first.Edge source target ∨
    (source = start ∨ first.count ≤ source) ∧
    (target = join ∨ first.count ≤ target ∧ target < last.count)
  separates : ∀ id terminator, last.Ends id terminator →
    first.Ends id terminator ∨ last.Separates first.count id terminator
  climbs : first.Climbs heads last fun source target => source = start ∨ target = join
  inside : last.current < last.count

variable {outline first middle last wider : Outline}
  {low fewer id source target other start join : Nat} {terminator : Terminator}
  {heads more : Nat → Prop}

theorem Edge.lt (edge : outline.Edge source target) : source < outline.count := by
  obtain ⟨terminator, ends, _⟩ := edge
  exact (List.getElem?_eq_some_iff.mp ends).1

@[simp] theorem count_withBlock (outline : Outline) :
    outline.withBlock.count = outline.count + 1 := by
  simp [count, withBlock]

@[simp] theorem count_moveTo (outline : Outline) (block : BlockId) :
    (outline.moveTo block).count = outline.count := rfl

@[simp] theorem current_withBlock (outline : Outline) :
    outline.withBlock.current = outline.current := rfl

@[simp] theorem count_terminate (outline : Outline) (terminator : Terminator) :
    (outline.terminate terminator).count = outline.count := by
  simp [count, terminate]

theorem ends_withBlock : outline.withBlock.Ends id terminator ↔ outline.Ends id terminator := by
  unfold Ends withBlock
  by_cases inside : id < outline.ends.length
  · rw [List.getElem?_append_left inside]
  · rw [List.getElem?_append_right (Nat.le_of_not_lt inside),
      List.getElem?_eq_none (Nat.le_of_not_lt inside)]
    cases id - outline.ends.length <;> simp

theorem edge_withBlock : outline.withBlock.Edge source target ↔ outline.Edge source target :=
  exists_congr fun _ => and_congr_left fun _ => ends_withBlock

theorem ends_terminate {final : Terminator} (ends : (outline.terminate terminator).Ends id final) :
    outline.Ends id final ∨ id = outline.current ∧ final = terminator := by
  simp only [Ends, terminate, List.getElem?_modify] at ends
  obtain ⟨before, found, same⟩ := Option.map_eq_some_iff.mp ends
  split at same
  · rename_i here
    cases before with
    | none => exact .inr ⟨here.symm, (Option.some.inj same).symm⟩
    | some ended => exact .inl (found.trans (congrArg some same))
  · exact .inl (found.trans (congrArg some same))

theorem edge_terminate (edge : (outline.terminate terminator).Edge source target) :
    outline.Edge source target ∨ source = outline.current ∧ target ∈ terminator.successors := by
  obtain ⟨final, ends, leads⟩ := edge
  rcases ends_terminate ends with before | ⟨here, rfl⟩
  · exact .inl ⟨final, before, leads⟩
  · exact .inr ⟨here, leads⟩

theorem Sound.moveTo (sound : outline.Sound) (inside : id < outline.count) :
    (outline.moveTo id).Sound :=
  ⟨inside, sound.edges⟩

theorem Sound.withBlock (sound : outline.Sound) : outline.withBlock.Sound := by
  refine ⟨?_, fun source target edge => ?_⟩
  · rw [count_withBlock]
    exact Nat.lt_succ_of_lt sound.current
  · rw [count_withBlock]
    exact Nat.lt_succ_of_lt (sound.edges source target (edge_withBlock.mp edge))

theorem Sound.terminate (sound : outline.Sound)
    (inside : ∀ target ∈ terminator.successors, target < outline.count) :
    (outline.terminate terminator).Sound := by
  refine ⟨?_, fun source target edge => ?_⟩
  · rw [count_terminate]
    exact sound.current
  · rw [count_terminate]
    rcases edge_terminate edge with before | ⟨_, leads⟩
    · exact sound.edges source target before
    · exact inside target leads

/-! What is said of old blocks stays true when edges to new blocks are added. -/

theorem OnlyFrom.fromOr (only : outline.OnlyFrom low source target) (other : Nat) :
    ∃ first last, outline.FromOr low source other target first last :=
  ⟨low, low, only.new, only.inside,
    ⟨Nat.le_refl low, Nat.le_of_lt (Nat.lt_of_le_of_lt only.new only.inside)⟩, fun id edge =>
      .inl (only.edges id edge), fun _ _ _ above below => absurd below (Nat.not_lt.mpr above)⟩

theorem FromOr.mono {begin stop : Nat} (holds : outline.FromOr low source other target begin stop)
    (less : fewer ≤ low) :
    outline.FromOr fewer source other target begin stop :=
  { holds with
    new := Nat.le_trans less holds.new
    range := ⟨Nat.le_trans less holds.range.1, holds.range.2⟩ }

theorem Separates.mono (separates : outline.Separates low id terminator) (less : fewer ≤ low) :
    outline.Separates fewer id terminator := by
  cases terminator with
  | guard condition kind message next =>
    exact { separates with new := Nat.le_trans less separates.new }
  | branch condition thenBlock elseBlock =>
    obtain ⟨⟨first, last, one⟩, start, stop, two⟩ := separates
    exact ⟨⟨first, last, one.mono less⟩, start, stop, two.mono less⟩
  | _ => trivial

theorem FromOr.grow {begin stop : Nat} (holds : outline.FromOr low source other target begin stop)
    (room : outline.count ≤ wider.count)
    (edges : ∀ id inner, wider.Edge id inner → low ≤ inner → inner < outline.count →
      outline.Edge id inner) :
    wider.FromOr low source other target begin stop where
  new := holds.new
  inside := Nat.lt_of_lt_of_le holds.inside room
  range := ⟨holds.range.1, Nat.le_trans holds.range.2 room⟩
  edges := fun id edge => holds.edges id (edges id target edge holds.new holds.inside)
  behind := fun id inner edge above below => holds.behind id inner
    (edges id inner edge (Nat.le_trans holds.range.1 above)
      (Nat.lt_of_lt_of_le below holds.range.2)) above below

theorem Separates.grow (separates : outline.Separates low id terminator)
    (room : outline.count ≤ wider.count)
    (edges : ∀ id inner, wider.Edge id inner → low ≤ inner → inner < outline.count →
      outline.Edge id inner) :
    wider.Separates low id terminator := by
  cases terminator with
  | guard condition kind message next =>
    exact ⟨separates.new, Nat.lt_of_lt_of_le separates.inside room, fun id edge =>
      separates.edges id (edges id next edge separates.new separates.inside)⟩
  | branch condition thenBlock elseBlock =>
    obtain ⟨⟨first, last, one⟩, start, stop, two⟩ := separates
    exact ⟨⟨first, last, one.grow room edges⟩, start, stop, two.grow room edges⟩
  | _ => trivial

theorem LeadsBack.mono (leads : outline.LeadsBack heads low source target) (less : fewer ≤ low) :
    outline.LeadsBack heads fewer source target := by
  obtain ⟨header, body, first, last, encloses⟩ := leads
  have range := encloses.range
  exact ⟨header, body, first, last,
    { encloses with new := Nat.le_trans less encloses.new, range := by omega }⟩

theorem LeadsBack.grow (leads : outline.LeadsBack heads low source target)
    (room : outline.count ≤ wider.count)
    (edges : ∀ id inner, wider.Edge id inner → low ≤ inner → inner < outline.count →
      outline.Edge id inner) :
    wider.LeadsBack heads low source target := by
  obtain ⟨header, body, first, last, encloses⟩ := leads
  have range := encloses.range
  refine ⟨header, body, first, last, encloses.new, by omega, encloses.inside,
    fun id inner edge among => ?_⟩
  exact encloses.entered id inner (edges id inner edge (by omega) (by omega)) among

theorem Separates.moveTo (separates : outline.Separates low id terminator) (block : BlockId) :
    (outline.moveTo block).Separates low id terminator :=
  separates.grow (Nat.le_refl _) fun _ _ edge _ _ => edge

theorem Climbs.moveTo {apart : Nat → Nat → Prop} (climbs : first.Climbs heads last apart)
    (block : BlockId) :
    first.Climbs heads (last.moveTo block) apart := by
  obtain ⟨rank, bound, low, leads⟩ := climbs
  refine ⟨rank, bound, low, fun source target edge => ?_⟩
  exact (leads source target edge).imp_right (Or.imp_right (Or.imp_right fun back =>
    back.grow (Nat.le_refl _) fun _ _ edge _ _ => edge))

theorem Develops.mono (develops : first.Develops heads last)
    (wide : ∀ id, first.count ≤ id → heads id → more id) :
    first.Develops more last := by
  obtain ⟨rank, bound, low, climbs⟩ := develops.climbs
  refine { develops with climbs := ⟨rank, bound, low, fun source target edge => ?_⟩ }
  refine (climbs source target edge).imp_right (Or.imp_right (Or.imp_right ?_))
  rintro ⟨header, body, first, last, encloses⟩
  exact ⟨wide target encloses.new header, body, first, last, encloses⟩

/-! Parts of a function. -/

theorem climbs_of_edges {apart : Nat → Nat → Prop}
    (edges : ∀ source target, last.Edge source target → first.Edge source target ∨
      apart source target) :
    first.Climbs heads last apart :=
  ⟨fun _ => 0, 1, fun _ _ _ => Nat.one_pos, fun source target edge =>
    (edges source target edge).imp_right .inl⟩

theorem Sound.develops (sound : outline.Sound) : outline.Develops heads outline :=
  ⟨Nat.le_refl _, fun _ _ edge => .inl edge, fun _ _ ends => .inl ends,
    climbs_of_edges fun _ _ edge => .inl edge, .inl rfl, sound.current⟩

theorem Develops.sound (develops : first.Develops heads last) (sound : first.Sound) :
    last.Sound := by
  refine ⟨develops.inside, fun source target edge => ?_⟩
  rcases develops.edges source target edge with before | ⟨_, _, inside⟩
  · exact Nat.lt_of_lt_of_le (sound.edges source target before) develops.room
  · exact inside

/-- What comes behind adds no edge to a block that was there before it. -/
theorem Develops.old (develops : first.Develops heads last) (edge : last.Edge source target)
    (inside : target < first.count) : first.Edge source target :=
  (develops.edges source target edge).resolve_right fun added =>
    Nat.not_lt.mpr added.2.1 inside

/-- The blocks of the second part come above those of the first. -/
theorem Develops.climbs_trans (before : first.Develops heads middle)
    (behind : middle.Develops heads last) :
    first.Climbs heads last fun source _ => source = first.current := by
  obtain ⟨rank, bound, low, climbs⟩ := before.climbs
  obtain ⟨later, more, small, further⟩ := behind.climbs
  refine ⟨fun id => if id < middle.count then rank id else bound + later id, bound + more,
    fun id new inside => ?_, fun source target edge => ?_⟩
  · dsimp only
    split
    · have bounded := low id new ‹_›
      omega
    · have bounded := small id (by omega) inside
      omega
  · dsimp only
    rcases behind.edges source target edge with old | ⟨origin, new, inside⟩
    · rcases climbs source target old with older | here | up | back
      · exact .inl older
      · exact .inr (.inl here)
      · rcases before.edges source target old with older | ⟨_, _, inside⟩
        · exact .inl older
        · rw [if_pos old.lt, if_pos inside]
          exact .inr (.inr (.inl up))
      · exact .inr (.inr (.inr (back.grow behind.room fun id inner edge _ => behind.old edge)))
    · rw [if_neg (Nat.not_lt.mpr new)]
      rcases origin with rfl | after
      · rcases before.current with first | later
        · exact .inr (.inl first)
        · have bounded := low _ later before.inside
          rw [if_pos before.inside]
          exact .inr (.inr (.inl (by omega)))
      · rw [if_neg (Nat.not_lt.mpr after)]
        rcases further source target edge with old | rfl | up | back
        · exact absurd old.lt (Nat.not_lt.mpr after)
        · exact absurd before.inside (Nat.not_lt.mpr after)
        · exact .inr (.inr (.inl (by omega)))
        · exact .inr (.inr (.inr (back.mono before.room)))

theorem Develops.trans (before : first.Develops heads middle)
    (behind : middle.Develops heads last) :
    first.Develops heads last where
  room := Nat.le_trans before.room behind.room
  edges := by
    intro source target edge
    rcases behind.edges source target edge with old | ⟨origin, new, inside⟩
    · rcases before.edges source target old with older | ⟨origin, new, inside⟩
      · exact .inl older
      · exact .inr ⟨origin, new, Nat.lt_of_lt_of_le inside behind.room⟩
    · refine .inr ⟨?_, Nat.le_trans before.room new, inside⟩
      rcases origin with here | later
      · rw [here]
        exact before.current
      · exact .inr (Nat.le_trans before.room later)
  separates := by
    intro id terminator ends
    rcases behind.separates id terminator ends with old | separates
    · exact (before.separates id terminator old).imp_right fun separates =>
        separates.grow behind.room fun id inner edge _ => behind.old edge
    · exact .inr (separates.mono before.room)
  climbs := before.climbs_trans behind
  current := by
    rcases behind.current with here | later
    · rw [here]
      exact before.current
    · exact .inr (Nat.le_trans before.room later)
  inside := behind.inside

theorem Develops.reducible (develops : first.Develops heads last)
    (empty : ∀ {source target}, ¬ first.Edge source target) (entry : first.current = 0)
    (alone : first.count = 1) : last.Reducible heads := by
  obtain ⟨rank, bound, _, climbs⟩ := develops.climbs
  refine ⟨fun id => if id = 0 then 0 else rank id + 1, fun source target edge => ?_⟩
  have added := (develops.edges source target edge).resolve_left empty
  rw [entry, alone] at added
  have leads := climbs source target edge
  dsimp only at leads ⊢
  rw [entry] at leads
  rcases leads with old | here | up | back
  · exact absurd old empty
  · left
    split_ifs <;> omega
  · left
    split_ifs <;> omega
  · exact .inr (alone ▸ back)

theorem Sound.develops_terminate (sound : outline.Sound) (stops : terminator.successors = []) :
    outline.Develops heads (outline.terminate terminator) := by
  have whole : (outline.terminate terminator).Sound := sound.terminate (by simp [stops])
  have edges {source target : Nat} (edge : (outline.terminate terminator).Edge source target) :
      outline.Edge source target := by
    rcases edge_terminate edge with before | ⟨_, leads⟩
    · exact before
    · simp [stops] at leads
  refine ⟨Nat.le_of_eq (count_terminate _ _).symm, fun _ _ edge => .inl (edges edge),
    fun id final ends => ?_, climbs_of_edges fun _ _ edge => .inl (edges edge), .inl rfl,
    whole.current⟩
  · refine (ends_terminate ends).imp_right fun ⟨_, same⟩ => ?_
    subst same
    cases final with
    | guard => simp [Terminator.successors] at stops
    | branch => simp [Terminator.successors] at stops
    | _ => trivial

theorem develops_moveTo {block : Nat} (new : outline.count ≤ block) (inside : block < last.count)
    (edges : ∀ source target, last.Edge source target → outline.Edge source target ∨
      (source = outline.current ∨ outline.count ≤ source) ∧ outline.count ≤ target ∧
      target < last.count)
    (separates : ∀ id terminator, last.Ends id terminator →
      outline.Ends id terminator ∨ last.Separates outline.count id terminator)
    (climbs : outline.Climbs heads last fun source _ => source = outline.current) :
    outline.Develops heads (last.moveTo block) where
  room := Nat.le_of_lt (Nat.lt_of_le_of_lt new inside)
  edges := edges
  separates := fun id terminator ends => (separates id terminator ends).imp_right fun separates =>
    separates.moveTo block
  climbs := climbs.moveTo block
  current := .inr new
  inside := inside

theorem develops_dead (outline : Outline) :
    outline.Develops heads (outline.withBlock.moveTo outline.count) :=
  develops_moveTo (Nat.le_refl _) (by simp) (fun _ _ edge => .inl (edge_withBlock.mp edge))
    (fun _ _ ends => .inl (ends_withBlock.mp ends))
    (climbs_of_edges fun _ _ edge => .inl (edge_withBlock.mp edge))

theorem Develops.detours (develops : (first.moveTo start).Develops heads last)
    (old : join < first.count) :
    first.Detours heads start join (last.terminate (.jump join)) := by
  have size := count_terminate last (.jump join)
  have edges {source target : BlockId} (edge : (last.terminate (.jump join)).Edge source target) :
      last.Edge source target ∨ source = last.current ∧ target = join := by
    simpa [Terminator.successors] using edge_terminate edge
  refine ⟨size ▸ develops.room, fun source target edge => ?_, fun id terminator ends => ?_, ?_,
    size ▸ develops.inside⟩
  · rcases edges edge with before | ⟨rfl, rfl⟩
    · exact (develops.edges source target before).imp_right
        (And.imp_right fun new => .inr (size ▸ new))
    · exact .inr ⟨develops.current, .inl rfl⟩
  · rcases ends_terminate ends with before | ⟨_, rfl⟩
    · refine (develops.separates id terminator before).imp_right fun separates =>
        separates.grow (Nat.le_of_eq size.symm) fun source target edge new _ => ?_
      refine (edges edge).resolve_right fun back => ?_
      have bound : first.count ≤ join := back.2 ▸ new
      exact Nat.not_lt.mpr bound old
    · exact .inr trivial
  · obtain ⟨rank, bound, low, climbs⟩ := develops.climbs
    refine ⟨rank, bound, fun id new inside => low id new (size ▸ inside),
      fun source target edge => ?_⟩
    rcases edges edge with before | ⟨_, joins⟩
    · rcases climbs source target before with old | here | up | back
      · exact .inl old
      · exact .inr (.inl (.inl here))
      · exact .inr (.inr (.inl up))
      · refine .inr (.inr (.inr (back.grow (Nat.le_of_eq size.symm) fun id inner edge new _ => ?_)))
        refine (edges edge).resolve_right fun back => ?_
        have bound : first.count ≤ join := back.2 ▸ new
        exact Nat.not_lt.mpr bound old
    · exact .inr (.inl (.inr joins))

theorem Detours.sound (detours : first.Detours heads start join last) (sound : first.Sound)
    (old : join < first.count) :
    last.Sound := by
  refine ⟨detours.inside, fun source target edge => ?_⟩
  rcases detours.edges source target edge with before | ⟨_, rfl | ⟨_, inside⟩⟩
  · exact Nat.lt_of_lt_of_le (sound.edges source target before) detours.room
  · exact Nat.lt_of_lt_of_le old detours.room
  · exact inside

/-! The statements that start blocks. -/

theorem Sound.develops_guard (sound : outline.Sound) (value : ValueId) (kind : GuardKind)
    (message : Option String) :
    outline.Develops heads
      ((outline.withBlock.terminate (.guard value kind message outline.count)).moveTo
        outline.count) := by
  generalize ended : outline.withBlock.terminate (.guard value kind message outline.count) = last
  have size : last.count = outline.count + 1 := by simp [← ended]
  have edges {source target : Nat} (edge : last.Edge source target) :
      outline.Edge source target ∨ source = outline.current ∧ target = outline.count := by
    rw [← ended] at edge
    simpa [Terminator.successors, edge_withBlock] using edge_terminate edge
  refine develops_moveTo (Nat.le_refl _) (by omega)
    (fun source target edge => (edges edge).imp_right (by omega)) (fun id terminator ends => ?_)
    (climbs_of_edges fun source target edge => (edges edge).imp_right And.left)
  rw [← ended] at ends
  refine (ends_terminate ends).imp ends_withBlock.mp ?_
  rintro ⟨rfl, rfl⟩
  refine ⟨Nat.le_refl _, by omega, fun id edge => ?_⟩
  rcases edges edge with before | added
  · exact absurd (sound.edges id _ before) (Nat.lt_irrefl _)
  · exact added.1

/-- A conditional with one side: what leads behind it comes from the condition or from behind the
start of that side. -/
theorem Sound.develops_conditional (sound : outline.Sound) (value : ValueId)
    (detours : (outline.withBlock.withBlock.terminate
      (.branch value outline.count (outline.count + 1))).Detours
      heads outline.count (outline.count + 1) last) :
    outline.Develops heads (last.moveTo (outline.count + 1)) := by
  obtain ⟨room, added, separates, ⟨rank, bound, low, climbs⟩, _⟩ := detours
  simp only [count_terminate, count_withBlock, Nat.add_assoc,
    Nat.reduceAdd] at room added separates low climbs
  have started {source target : Nat} (edge : (outline.withBlock.withBlock.terminate
      (.branch value outline.count (outline.count + 1))).Edge source target) :
      outline.Edge source target ∧ target < outline.count ∨
        source = outline.current ∧ (target = outline.count ∨ target = outline.count + 1) := by
    have ended := edge_terminate edge
    simp only [edge_withBlock, current_withBlock, Terminator.successors, List.mem_cons,
      List.not_mem_nil, or_false] at ended
    exact ended.imp_left fun before => ⟨before, sound.edges source target before⟩
  have edges {source target : Nat} (edge : last.Edge source target) : outline.Edge source target ∧
    target < outline.count ∨
      source = outline.current ∧ (target = outline.count ∨ target = outline.count + 1) ∨
      (source = outline.count ∨ outline.count + 2 ≤ source) ∧
        (target = outline.count + 1 ∨ outline.count + 2 ≤ target ∧ target < last.count) := by
    rw [← or_assoc]
    exact (added source target edge).imp_left started
  refine develops_moveTo (Nat.le_succ _) (by omega) (fun source target edge => ?_)
    (fun id terminator ends => ?_) ?_
  · exact (edges edge).imp And.left (by omega)
  · rcases separates id terminator ends with before | new
    · refine (ends_terminate before).imp
        (fun before => ends_withBlock.mp (ends_withBlock.mp before)) ?_
      rintro ⟨rfl, rfl⟩
      have thenOnly : last.OnlyFrom outline.count outline.current outline.count := by
        refine ⟨Nat.le_refl _, by omega, fun id edge => ?_⟩
        have added := edges edge
        omega
      refine ⟨thenOnly.fromOr _, outline.count + 2, last.count, Nat.le_succ _, by omega,
        ⟨by omega, Nat.le_refl _⟩, ?_, ?_⟩
      · intro id edge
        have here := edge.lt
        have added := edges edge
        rw [current_withBlock, current_withBlock]
        omega
      · intro id inner edge above below
        have here := edge.lt
        have added := edges edge
        omega
    · exact .inr (new.mono (by omega))
  · refine ⟨fun id => if id = outline.count then 0 else if id = outline.count + 1 then bound + 1
      else rank id + 1, bound + 2, fun id new inside => ?_, fun source target edge => ?_⟩
    · have bounded := low id
      dsimp only
      split_ifs <;> omega
    · have lower := edge.lt
      have bounded := low source
      dsimp only
      rcases edges edge with old | enters | inner
      · exact .inl old.1
      · exact .inr (.inl enters.1)
      · rcases climbs source target edge with branches | leaves | up | back
        · exact (started branches).imp And.left (.inl ∘ And.left)
        · refine .inr (.inr (.inl ?_))
          split_ifs <;> omega
        · refine .inr (.inr (.inl ?_))
          split_ifs <;> omega
        · exact .inr (.inr (.inr (back.mono (by omega))))

/-- A conditional with two sides: only the condition leads to either. -/
theorem Sound.develops_branch (sound : outline.Sound) (value : ValueId)
    (thenPart : (outline.withBlock.withBlock.withBlock.terminate
      (.branch value outline.count (outline.count + 2))).Detours heads outline.count
      (outline.count + 1) middle)
    (elsePart : middle.Detours heads (outline.count + 2) (outline.count + 1) last) :
    outline.Develops heads (last.moveTo (outline.count + 1)) := by
  obtain ⟨room, added, separates, ⟨rank, bound, low, climbs⟩, _⟩ := thenPart
  obtain ⟨further, more, apart, ⟨other, limit, small, ascends⟩, _⟩ := elsePart
  simp only [count_terminate, count_withBlock, Nat.add_assoc,
    Nat.reduceAdd] at room added separates low climbs
  have started {source target : Nat} (edge : (outline.withBlock.withBlock.withBlock.terminate
      (.branch value outline.count (outline.count + 2))).Edge source target) :
      outline.Edge source target ∧ target < outline.count ∨
        source = outline.current ∧ (target = outline.count ∨ target = outline.count + 2) := by
    have ended := edge_terminate edge
    simp only [edge_withBlock, current_withBlock, Terminator.successors, List.mem_cons,
      List.not_mem_nil, or_false] at ended
    exact ended.imp_left fun before => ⟨before, sound.edges source target before⟩
  have edges {source target : Nat} (edge : last.Edge source target) : outline.Edge source target ∧
    target < outline.count ∨
      source = outline.current ∧ (target = outline.count ∨ target = outline.count + 2) ∨
      outline.count ≤ source ∧
      (target = outline.count + 1 ∨ outline.count + 3 ≤ target ∧ target < last.count) := by
    rcases more source target edge with first | second
    · rcases added source target first with branches | inside
      · exact (started branches).imp_right .inl
      · omega
    · omega
  refine develops_moveTo (Nat.le_succ _) (by omega) (fun source target edge => ?_)
    (fun id terminator ends => ?_) ?_
  · exact (edges edge).imp And.left (by omega)
  · rcases apart id terminator ends with before | new
    · rcases separates id terminator before with before | new
      · refine (ends_terminate before).imp
          (fun before => ends_withBlock.mp (ends_withBlock.mp (ends_withBlock.mp before))) ?_
        rintro ⟨rfl, rfl⟩
        have only {target : Nat} (side : target = outline.count ∨ target = outline.count + 2) :
            last.OnlyFrom outline.count outline.current target := by
          refine ⟨by omega, by omega, fun id edge => ?_⟩
          have added := edges edge
          omega
        exact ⟨(only (.inl rfl)).fromOr _, (only (.inr rfl)).fromOr _⟩
      · refine .inr ((new.grow further fun source target edge above below => ?_).mono (by omega))
        exact (more source target edge).resolve_right (by omega)
    · exact .inr (new.mono (by omega))
  · refine ⟨fun id => if id = outline.count ∨ id = outline.count + 2 then 0
        else if id = outline.count + 1 then bound + limit + 1
        else if id < middle.count then rank id + 1 else bound + other id + 1,
      bound + limit + 2, fun id new inside => ?_, fun source target edge => ?_⟩
    · have bounded := low id
      have limited := small id
      dsimp only
      split_ifs <;> omega
    · have lower := edge.lt
      have bounded := low source
      have limited := small source
      dsimp only
      rcases edges edge with old | enters | inner
      · exact .inl old.1
      · exact .inr (.inl enters.1)
      · rcases more source target edge with first | second
        · have earlier := first.lt
          rcases added source target first with branches | inside
          · exact (started branches).imp And.left (.inl ∘ And.left)
          · rcases climbs source target first with branches | leaves | up | back
            · exact (started branches).imp And.left (.inl ∘ And.left)
            · refine .inr (.inr (.inl ?_))
              split_ifs <;> omega
            · refine .inr (.inr (.inl ?_))
              split_ifs <;> omega
            · have kept := back.grow further fun source target edge above below =>
                (more source target edge).resolve_right (by omega)
              exact .inr (.inr (.inr (kept.mono (by omega))))
        · rcases ascends source target edge with first | leaves | up | back
          · have earlier := first.lt
            rcases added source target first with branches | inside
            · exact (started branches).imp And.left (.inl ∘ And.left)
            · omega
          · refine .inr (.inr (.inl ?_))
            split_ifs <;> omega
          · refine .inr (.inr (.inl ?_))
            split_ifs <;> omega
          · exact .inr (.inr (.inr (back.mono (by omega))))

/-- A loop: only the condition leads into it and behind it. -/
theorem Sound.develops_loop (sound : outline.Sound) (value : ValueId)
    (header : heads outline.count)
    (detours :
      (((outline.withBlock.terminate (.jump outline.count)).moveTo
        outline.count).withBlock.withBlock.terminate
      (.branch value (outline.count + 1) (outline.count + 2))).Detours heads
      (outline.count + 1) outline.count last) :
    outline.Develops heads (last.moveTo (outline.count + 2)) := by
  obtain ⟨room, added, separates, ⟨rank, bound, low, climbs⟩, _⟩ := detours
  simp only [count_terminate, count_withBlock, count_moveTo, Nat.add_assoc,
    Nat.reduceAdd] at room added separates low climbs
  have started {source target : Nat}
    (edge : (((outline.withBlock.terminate (.jump outline.count)).moveTo
      outline.count).withBlock.withBlock.terminate
      (.branch value (outline.count + 1) (outline.count + 2))).Edge source target) :
      outline.Edge source target ∧ target < outline.count ∨ source = outline.current ∧
        target = outline.count ∨
        source = outline.count ∧ (target = outline.count + 1 ∨ target = outline.count + 2) := by
    have ended := edge_terminate edge
    simp only [edge_withBlock, current_withBlock, Terminator.successors, List.mem_cons,
      List.not_mem_nil, or_false] at ended
    rcases ended with enters | branches
    · have first := edge_terminate enters
      simp only [edge_withBlock, current_withBlock, Terminator.successors,
        List.mem_singleton] at first
      exact first.elim (fun before => .inl ⟨before, sound.edges source target before⟩) (.inr ∘ .inl)
    · exact .inr (.inr branches)
  have edges {source target : Nat} (edge : last.Edge source target) : outline.Edge source target ∧
    target < outline.count ∨
      source = outline.current ∧ target = outline.count ∨
      source = outline.count ∧ (target = outline.count + 1 ∨ target = outline.count + 2) ∨
      (source = outline.count + 1 ∨ outline.count + 3 ≤ source) ∧
        (target = outline.count ∨ outline.count + 3 ≤ target ∧ target < last.count) := by
    rcases added source target edge with branches | inside
    · exact (started branches).imp_right (Or.imp_right .inl)
    · exact .inr (.inr (.inr inside))
  refine develops_moveTo (Nat.le_add_right _ _) (by omega) (fun source target edge => ?_)
    (fun id terminator ends => ?_) ?_
  · exact (edges edge).imp And.left (by omega)
  · rcases separates id terminator ends with before | new
    · rcases ends_terminate before with before | ⟨rfl, rfl⟩
      · have before := ends_withBlock.mp (ends_withBlock.mp before)
        refine (ends_terminate before).imp ends_withBlock.mp ?_
        rintro ⟨_, rfl⟩
        trivial
      · have only {target : Nat} (side : target = outline.count + 1 ∨ target = outline.count + 2) :
            last.OnlyFrom outline.count outline.count target := by
          refine ⟨by omega, by omega, fun id edge => ?_⟩
          have added := edges edge
          omega
        exact .inr ⟨(only (.inl rfl)).fromOr _, (only (.inr rfl)).fromOr _⟩
    · exact .inr (new.mono (by omega))
  · refine ⟨fun id => if id = outline.count then 0 else if id ≤ outline.count + 2 then 1
      else rank id + 2, bound + 2, fun id new inside => ?_, fun source target edge => ?_⟩
    · have bounded := low id
      dsimp only
      split_ifs <;> omega
    · have lower := edge.lt
      dsimp only
      rcases edges edge with old | enters | branches | inner
      · exact .inl old.1
      · exact .inr (.inl enters.1)
      · refine .inr (.inr (.inl ?_))
        split_ifs <;> omega
      · by_cases returns : target = outline.count
        · subst returns
          have range : outline.count ≤ outline.count + 1 ∧ outline.count + 1 < last.count ∧
              outline.count ≤ outline.count + 3 ∧ last.count ≤ last.count := by omega
          refine .inr (.inr (.inr ⟨header, outline.count + 1, outline.count + 3, last.count,
            by omega, range, by omega, fun id inner edge among => ?_⟩))
          have before := edge.lt
          have entered := edges edge
          omega
        · rcases climbs source target edge with first | leaves | up | back
          · rcases started first with old | others
            · exact .inl old.1
            · omega
          · refine .inr (.inr (.inl ?_))
            split_ifs <;> omega
          · refine .inr (.inr (.inl ?_))
            split_ifs <;> omega
          · exact .inr (.inr (.inr (back.mono (by omega))))

end Outline

end Covenant
