import Covenant.Proofs.Bytecode.Canonical
import Covenant.Proofs.Bytecode.Optimizing

/-!
Reductions make programs smaller. Each one removes bytes or operations, keeps all jumps on jump
destinations, and moves no jump destination to a larger byte offset. So a program that can be
encoded stays one that can be, and only so many reductions can follow each other.
-/

namespace Covenant

namespace Bytecode

open Folding (size)

theorem size_append (left right : List Op) : size (left ++ right) = size left + size right := by
  simp only [size, List.map_append, total_append]

theorem size_cons (op : Op) (rest : List Op) :
    size (op :: rest) = op.encodedLength + size rest := rfl

theorem size_map_mapTarget (move : Nat → Nat) (ops : List Op) :
    size (ops.map fun op => op.mapTarget move) = size ops := by
  simp only [size, List.map_map]
  exact congrArg total (List.map_congr_left fun op _ => Op.encodedLength_mapTarget op move)

def Program.weight (program : Program) : Nat := program.encodedLength + program.ops.length

theorem Program.encodedLength_eq (program : Program) :
    program.encodedLength = headerLength + size program.ops := rfl

theorem getD_offsetsFrom {ops : List Op} {index : Nat} (inside : index ≤ ops.length)
    (offset : Nat) :
    (Program.offsetsFrom offset ops).getD index 0 = offset + size (ops.take index) := by
  induction ops generalizing index offset with
  | nil =>
    obtain rfl : index = 0 := by simpa using inside
    rfl
  | cons op rest ih =>
    cases index with
    | zero => rfl
    | succ index =>
      rw [Program.offsetsFrom, List.getD_cons_succ, ih (by simpa using inside), List.take_succ_cons,
        size_cons, Nat.add_assoc]

namespace Edits

variable {edits : Edits} {ops : List Op}

def Keeps (edits : Edits) (index : Nat) : Prop := edits.getD index none = none

/-- What stands in the edited code was kept, or it is part of a replacement. -/
theorem mem_segments {op : Op} (member : op ∈ (edits.segments ops).flatten) :
    (∃ index : Nat, ops[index]? = some op ∧ edits.Keeps index) ∨
      ∃ replacement, some replacement ∈ edits ∧ op ∈ replacement := by
  fun_induction segments edits ops with
  | case1 edits => simp at member
  | case2 first rest ih =>
    rcases List.mem_cons.mp member with rfl | later
    · exact .inl ⟨0, rfl, rfl⟩
    · rcases ih later with ⟨index, found, _⟩ | ⟨replacement, listed, _⟩
      · exact .inl ⟨index + 1, found, rfl⟩
      · simp at listed
  | case3 edits first rest ih =>
    rcases List.mem_cons.mp member with rfl | later
    · exact .inl ⟨0, rfl, rfl⟩
    · rcases ih later with ⟨index, found, kept⟩ | ⟨replacement, listed, inside⟩
      · exact .inl ⟨index + 1, found, kept⟩
      · exact .inr ⟨replacement, List.mem_cons_of_mem _ listed, inside⟩
  | case4 replacement edits first rest ih =>
    rcases List.mem_append.mp member with here | later
    · exact .inr ⟨replacement, List.mem_cons_self, here⟩
    · rcases ih later with ⟨index, found, kept⟩ | ⟨replacement, listed, inside⟩
      · exact .inl ⟨index + 1, found, kept⟩
      · exact .inr ⟨replacement, List.mem_cons_of_mem _ listed, inside⟩

theorem Keeps.found {program : Program} {index : Nat} {op : Op} (kept : edits.Keeps index)
    (found : program.ops[index]? = some op) :
    (program.splice edits).ops[edits.place program.ops index]? =
      some (op.mapTarget (edits.place program.ops)) := by
  obtain ⟨inside, rfl⟩ := List.getElem?_eq_some_iff.mp found
  have codeAt := List.drop_eq_getElem_cons inside
  have kept : (edits.drop index).getD 0 none = none := by
    rw [List.getD_eq_getElem?_getD, List.getElem?_drop, ← List.getD_eq_getElem?_getD]
    exact kept
  have cut : segments (edits.drop index) (program.ops.drop index) =
      [program.ops[index]] :: segments (edits.drop index).tail (program.ops.drop (index + 1)) := by
    rw [codeAt]
    cases behind : edits.drop index with
    | nil => rfl
    | cons edit later =>
      rw [behind] at kept
      obtain rfl : edit = none := kept
      rfl
  exact (kept_of_segments found cut).1

end Edits

theorem jumpsLand_splice {program : Program} {edits : Edits} (live : Nat → Prop)
    (kept : ∀ (index : Nat) (op : Op) (target : Nat), program.ops[index]? = some op →
      edits.Keeps index →
      op.target? = some target → live target)
    (made : ∀ replacement, some replacement ∈ edits → ∀ op ∈ replacement, ∀ target,
      op.target? = some target →
      live target)
    (lands : ∀ target, live target → program.ops[target]? = some .jumpDest ∧ edits.Keeps target) :
    (program.splice edits).JumpsLand := by
  intro index op target found aims
  rw [Program.ops_splice, List.getElem?_map, Option.map_eq_some_iff] at found
  obtain ⟨old, there, rfl⟩ := found
  rw [Op.target?_mapTarget, Option.map_eq_some_iff] at aims
  obtain ⟨before, aimed, rfl⟩ := aims
  have isLive : live before := by
    rcases Edits.mem_segments (List.mem_of_getElem? there) with ⟨place, stood, keeps⟩
      | ⟨replacement, listed, inside⟩
    · exact kept place old before stood keeps aimed
    · exact made replacement listed old inside before aimed
  obtain ⟨stands, keeps⟩ := lands before isLive
  exact keeps.found stands

/-! Edits that follow a rule. -/

namespace Rewrites

variable {rule : Nat → List Op → List Op → Prop} {index : Nat} {ops : List Op} {edits : Edits}

/-- An operation is kept where no group of the rule holds it. -/
theorem keeps (rewrites : Rewrites rule index ops edits) {place : Nat} {op : Op}
    (found : ops[place]? = some op)
    (spares : ∀ {start group replacement}, rule start group replacement → ∀ offset : Nat,
      group[offset]? = some op →
      start + offset ≠ index + place) : edits.Keeps place := by
  induction rewrites generalizing place with
  | done => rfl
  | @keep index first rest edits later ih =>
    cases place with
    | zero => rfl
    | succ place =>
      refine ih found fun ruled offset held => ?_
      have apart := spares ruled offset held
      omega
  | @group index first others replacement rest edits ruled later ih =>
    by_cases inside : place < (first :: others).length
    · rw [List.getElem?_append_left inside] at found
      exact absurd rfl (spares ruled place found)
    · obtain ⟨further, rfl⟩ : ∃ further, place = (first :: others).length + further :=
        ⟨place - (first :: others).length, by omega⟩
      rw [List.getElem?_append_right (by omega), Nat.add_sub_cancel_left] at found
      have behind : edits.Keeps further := by
        refine ih found fun ruled offset held => ?_
        have apart := spares ruled offset held
        rw [List.length_cons] at apart
        omega
      have placed :
          (some replacement :: others.map (fun _ => (some [] : Option (List Op)))).length ≤
          (first :: others).length + further := by simp
      rw [Edits.Keeps, List.getD_eq_getElem?_getD, List.getElem?_append_right placed]
      simpa [Edits.Keeps] using behind

theorem ruled_of_mem (rewrites : Rewrites rule index ops edits) {replacement : List Op}
    (listed : some replacement ∈ edits) :
    replacement = [] ∨ ∃ start group, rule start group replacement ∧ ∀ op ∈ group, op ∈ ops := by
  induction rewrites with
  | done => simp at listed
  | keep later ih =>
    rcases ih (by simpa using listed) with blank | ⟨start, group, ruled, stood⟩
    · exact .inl blank
    · exact .inr ⟨start, group, ruled, fun op inside => List.mem_cons_of_mem _ (stood op inside)⟩
  | @group index first others made rest edits ruled later ih =>
    rcases List.mem_append.mp listed with here | behind
    · rcases List.mem_cons.mp here with same | blank
      · obtain rfl := Option.some.inj same
        exact .inr ⟨index, _, ruled, fun op inside => List.mem_append_left _ inside⟩
      · obtain ⟨_, _, same⟩ := List.mem_map.mp blank
        exact .inl (Option.some.inj same).symm
    · rcases ih behind with blank | ⟨start, group, ruled, stood⟩
      · exact .inl blank
      · exact .inr ⟨start, group, ruled, fun op inside => List.mem_append_right _ (stood op inside)⟩

/-- Edits that never make a group longer move no jump destination to a larger byte offset. -/
theorem size_take_le
    (tail : ∀ {index first others replacement}, rule index (first :: others) replacement →
      Op.jumpDest ∉ others)
    (shorter : ∀ {index group replacement}, rule index group replacement →
      size replacement ≤ size group)
    (rewrites : Rewrites rule index ops edits) {target : Nat}
    (lands : ops[target]? = some .jumpDest) :
    size ((edits.segments ops).take target).flatten ≤ size (ops.take target) := by
  induction rewrites generalizing target with
  | @done index ops =>
    have same (ops : List Op) : Edits.segments [] ops = ops.map fun op => [op] := by
      induction ops with
      | nil => rfl
      | cons op rest ih => rw [Edits.segments, ih, List.map_cons]
    have whole : ((Edits.segments [] ops).take target).flatten = ops.take target := by
      rw [same, ← List.map_take, ← same, Edits.flatten_segments_nil]
    exact Nat.le_of_eq (congrArg size whole)
  | @keep index op rest edits later ih =>
    cases target with
    | zero => exact Nat.zero_le _
    | succ target =>
      have behind := ih lands
      simp only [Edits.segments, List.take_succ_cons, List.flatten_cons,
        List.singleton_append, size_cons]
      omega
  | @group index first others replacement rest edits ruled later ih =>
    rw [Edits.segments_group]
    by_cases inside : target < (first :: others).length
    · rw [List.getElem?_append_left inside] at lands
      cases target with
      | zero => exact Nat.zero_le _
      | succ target =>
        rw [List.getElem?_cons_succ] at lands
        exact absurd (List.mem_of_getElem? lands) (tail ruled)
    · obtain ⟨further, rfl⟩ : ∃ further, target = (first :: others).length + further :=
        ⟨target - (first :: others).length, by omega⟩
      rw [List.getElem?_append_right (by omega), Nat.add_sub_cancel_left] at lands
      have behind := ih lands
      have small := shorter ruled
      have codeTaken : (first :: others ++ rest).take ((first :: others).length + further) =
          first :: others ++ rest.take further := List.take_length_add_append further
      have segmentsTaken :
          (replacement :: others.map (fun _ => ([] : List Op)) ++ edits.segments rest).take
          ((first :: others).length + further) =
            replacement :: others.map (fun _ => []) ++ (edits.segments rest).take further := by
        have length : (replacement :: others.map fun _ => ([] : List Op)).length =
            (first :: others).length := by simp
        rw [← length]
        exact List.take_length_add_append further
      rw [codeTaken, segmentsTaken, List.flatten_append, List.flatten_cons, Edits.flatten_blank,
        List.append_nil, size_append, size_append]
      omega

theorem weight_lt (smaller : ∀ {index group replacement}, rule index group replacement →
      size replacement + replacement.length < size group + group.length)
    (rewrites : Rewrites rule index ops edits) :
    size (edits.segments ops).flatten + (edits.segments ops).flatten.length ≤ size ops +
      ops.length ∧
      (edits.any Option.isSome = true →
        size (edits.segments ops).flatten + (edits.segments ops).flatten.length < size ops +
          ops.length) := by
  induction rewrites with
  | done => simp [Edits.flatten_segments_nil]
  | @keep index op rest edits later ih =>
    simp only [Edits.segments, List.flatten_cons, List.singleton_append, size_cons,
      List.length_cons, List.any_cons, Option.isSome_none, Bool.false_or]
    exact ⟨by omega, fun changed => by have less := ih.2 changed; omega⟩
  | @group index first others replacement rest edits ruled later ih =>
    have less := smaller ruled
    rw [Edits.segments_group, List.flatten_append, List.flatten_cons, Edits.flatten_blank,
      List.append_nil, size_append, List.length_append, size_append, List.length_append]
    have behind := ih.1
    exact ⟨by omega, fun _ => by omega⟩

end Rewrites

/-! What a program becomes that is made smaller. -/

/-- What a rule saves. Replacements take no more bytes than their groups, and fewer bytes and
operations; they jump only to where their groups do; and jump destinations are replaced only by
themselves. -/
structure Saves (rule : Nat → List Op → List Op → Prop) : Prop where
  tail : ∀ {index first others replacement}, rule index (first :: others) replacement →
    Op.jumpDest ∉ others
  size : ∀ {index group replacement}, rule index group replacement → size replacement ≤ size group
  weight : ∀ {index group replacement}, rule index group replacement →
    Folding.size replacement + replacement.length < Folding.size group + group.length
  targets : ∀ {index group replacement}, rule index group replacement → ∀ op ∈ replacement,
    ∀ target, op.target? = some target → ∃ old ∈ group, old.target? = some target

/-- Whether edits make a program smaller: all jumps lead to jump destinations, which are those that
jumps led to before; no jump destination moves to a larger byte offset; and there are fewer bytes
and operations. -/
structure Program.Shrinks (program : Program) (edits : Edits) : Prop where
  lands : (program.splice edits).JumpsLand
  targets : ∀ op ∈ (program.splice edits).ops, ∀ target, op.target? = some target →
    ∃ old ∈ program.ops, ∃ before, old.target? = some before ∧
    target = edits.place program.ops before
  offsets : ∀ target : Nat, program.ops[target]? = some .jumpDest →
    (program.splice edits).offsets.getD (edits.place program.ops target) 0 ≤
      program.offsets.getD target 0
  weight : (program.splice edits).weight < program.weight

section

variable {program : Program} {edits : Edits} {rule : Nat → List Op → List Op → Prop}

theorem offsets_splice {index : Nat} (inside : index ≤ program.ops.length) :
    (program.splice edits).offsets.getD (edits.place program.ops index) 0 =
      size ((edits.segments program.ops).take index).flatten := by
  have whole := List.take_append_drop index (edits.segments program.ops)
  have code : (edits.segments program.ops).flatten =
      ((edits.segments program.ops).take index).flatten ++
      ((edits.segments program.ops).drop index).flatten := by
    rw [← List.flatten_append, whole]
  rw [Program.offsets, Program.ops_splice, offsetsFrom_map
    fun op => Op.encodedLength_mapTarget op _, Edits.place_eq inside, getD_offsetsFrom,
    Nat.zero_add, code, List.take_left]
  rw [code, List.length_append]
  omega

theorem weight_splice : (program.splice edits).weight = Program.headerLength +
    size (edits.segments program.ops).flatten + (edits.segments program.ops).flatten.length := by
  rw [Program.weight, Program.encodedLength_eq, Program.ops_splice, size_map_mapTarget,
    List.length_map]

/-- Edits by a rule that saves something make a program smaller, if there are any. -/
theorem shrinks_of_rewrites (saves : Saves rule) (rewrites : Rewrites rule 0 program.ops edits)
    (changed : edits.any Option.isSome = true) (lands : (program.splice edits).JumpsLand) :
    program.Shrinks edits where
  lands := lands
  targets := by
    intro op member target aims
    rw [Program.ops_splice] at member
    obtain ⟨raw, inside, rfl⟩ := List.mem_map.mp member
    rw [Op.target?_mapTarget, Option.map_eq_some_iff] at aims
    obtain ⟨before, aimed, rfl⟩ := aims
    rcases Edits.mem_segments inside with ⟨place, stood, _⟩ | ⟨replacement, listed, held⟩
    · exact ⟨raw, List.mem_of_getElem? stood, before, aimed, rfl⟩
    · rcases rewrites.ruled_of_mem listed with rfl | ⟨start, group, ruled, within⟩
      · simp at held
      · obtain ⟨old, grouped, same⟩ := saves.targets ruled raw held before aimed
        exact ⟨old, within old grouped, before, same, rfl⟩
  offsets := by
    intro target found
    have inside := (List.getElem?_eq_some_iff.mp found).1
    rw [offsets_splice (Nat.le_of_lt inside), Program.offsets,
      getD_offsetsFrom (Nat.le_of_lt inside), Nat.zero_add]
    exact rewrites.size_take_le saves.tail saves.size found
  weight := by
    have less := (rewrites.weight_lt saves.weight).2 changed
    rw [weight_splice, Program.weight, Program.encodedLength_eq]
    omega

theorem lands_of_rewrites (lands : program.JumpsLand) (saves : Saves rule)
    (spares : ∀ {index group replacement}, rule index group replacement → Op.jumpDest ∉ group)
    (rewrites : Rewrites rule 0 program.ops edits) : (program.splice edits).JumpsLand := by
  refine jumpsLand_splice (fun target => program.ops[target]? = some .jumpDest) ?_ ?_ ?_
  · intro index op target found _ aims
    exact lands index op target found aims
  · intro replacement listed op member target aims
    rcases rewrites.ruled_of_mem listed with rfl | ⟨start, group, ruled, within⟩
    · simp at member
    · obtain ⟨old, grouped, same⟩ := saves.targets ruled op member target aims
      obtain ⟨index, found⟩ := List.getElem?_of_mem (within old grouped)
      exact lands index old target found same
  · intro target found
    refine ⟨found, rewrites.keeps found fun ruled offset held => ?_⟩
    exact absurd (List.mem_of_getElem? held) (spares ruled)

end

/-! The four reductions. -/

namespace DeadCode

variable {program : Program} {reachable targets : List Nat}

theorem saves_removes : Saves (Removes reachable targets) where
  tail := by
    intro index first others replacement removes
    cases removes <;> simp
  size := by
    intro index group replacement removes
    cases removes <;> exact Nat.zero_le _
  weight := by
    intro index group replacement removes
    cases removes <;> simp [Folding.size, total]
  targets := by
    intro index group replacement removes op member
    cases removes <;> simp at member

theorem changes_of_reasons {index : Nat} {ops : List Op}
    (given : (edits reachable targets index ops).2 ≠ []) :
    (edits reachable targets index ops).1.any Option.isSome = true := by
  fun_induction edits reachable targets index ops with
  | case1 index => simp at given
  | case2 index op rest none others reasons recursion ih =>
    rw [recursion] at ih
    simpa using ih given
  | case3 index op discarded => simp at given
  | case4 => rfl
  | case5 => rfl

/-- Operations are kept only where a run can get. -/
theorem reachable_of_keeps {index place : Nat} {ops : List Op} {op : Op}
    (found : ops[place]? = some op) (kept : (edits reachable targets index ops).1.Keeps place) :
    index + place ∈ reachable := by
  fun_induction edits reachable targets index ops generalizing place with
  | case1 index => simp at found
  | case2 index first rest none others reasons recursion ih =>
    cases place with
    | zero =>
      unfold reason? at none
      split at none
      · simp at none
      · rename_i reached
        simpa using reached
    | succ place =>
      rw [recursion] at ih
      have behind := ih found kept
      rwa [Nat.add_right_comm, Nat.add_assoc] at behind
  | case3 index first discarded =>
    obtain ⟨_, none⟩ := discarded_of_reason discarded
    simp at none
  | case4 index first second tail others reasons recursion discarded ih =>
    rcases place with _ | _ | place
    · simp [Edits.Keeps] at kept
    · simp [Edits.Keeps] at kept
    · rw [recursion] at ih
      have behind := ih found kept
      rwa [Nat.add_assoc, Nat.add_comm 2] at behind
  | case5 index first rest reason other given others reasons recursion ih =>
    cases place with
    | zero => simp [Edits.Keeps] at kept
    | succ place =>
      rw [recursion] at ih
      have behind := ih found kept
      rwa [Nat.add_right_comm, Nat.add_assoc] at behind

theorem mem_targets {target : Nat} : target ∈ DeadCode.targets program reachable ↔
    ∃ index op, program.ops[index]? = some op ∧ index ∈ reachable ∧ op.target? = some target := by
  unfold DeadCode.targets
  simp only [List.mem_filterMap, Prod.exists, List.mk_mem_zipIdx_iff_getElem?]
  constructor
  · rintro ⟨op, index, found, aims⟩
    split at aims
    · rename_i reached
      exact ⟨index, op, found, by simpa using reached, aims⟩
    · simp at aims
  · rintro ⟨index, op, found, reached, aims⟩
    exact ⟨op, index, found, by simpa [reached] using aims⟩

/-- The jumps that are left lead to jump destinations, which can be reached and are jumped to, and
so are left too. -/
theorem lands_splice (lands : program.JumpsLand) :
    let targets := DeadCode.targets program program.reachable
    (program.splice (edits program.reachable targets 0 program.ops).1).JumpsLand := by
  intro targets
  have rewrites := rewrites_edits program.reachable targets 0 program.ops
  refine jumpsLand_splice (fun target => target ∈ targets) ?_ ?_ ?_
  · intro index op target found kept aims
    have reached := reachable_of_keeps found kept
    rw [Nat.zero_add] at reached
    exact mem_targets.mpr ⟨index, op, found, reached, aims⟩
  · intro replacement listed op member
    rcases rewrites.ruled_of_mem listed with rfl | ⟨start, group, ruled, _⟩
    · simp at member
    · cases ruled <;> simp at member
  · intro target live
    obtain ⟨index, op, found, reached, aims⟩ := mem_targets.mp live
    have stands := lands index op target found aims
    refine ⟨stands, rewrites.keeps stands @fun start group replacement ruled offset held same => ?_⟩
    have inside := (List.getElem?_eq_some_iff.mp stands).1
    have reachedToo : target ∈ program.reachable :=
      (covers_reachable program).target (fun _ => reached) found aims inside
    rw [Nat.zero_add] at same
    subst same
    cases ruled with
    | unreachable missing =>
      obtain rfl : offset = 0 := by
        have short := (List.getElem?_eq_some_iff.mp held).1
        simpa using short
      exact missing (by simpa using reachedToo)
    | marker unused =>
      obtain rfl : offset = 0 := by
        have short := (List.getElem?_eq_some_iff.mp held).1
        simpa using short
      exact unused (by simpa using live)
    | nextJump => simpa using List.mem_of_getElem? held
    | @discarded first pure =>
      have same : first = .jumpDest := by
        rcases List.mem_cons.mp (List.mem_of_getElem? held) with here | later
        · exact here.symm
        · simp at later
      rw [same] at pure
      exact absurd pure (by decide)

end DeadCode

namespace Folding

theorem saves_shortens : Saves Shortens where
  tail :=
    (sound_shortens (by simp [Program.JumpsLand]) : Sound True ⟨[]⟩ (fun _ => True) Shortens).tail
  size := fun shortens => shortens.2
  weight := by
    rintro index group replacement ⟨folds, small⟩
    have fewer : replacement.length < group.length := by cases folds <;> simp
    omega
  targets := by
    rintro index group replacement ⟨folds, _⟩ op member target aims
    cases folds with
    | binary | unary =>
      obtain rfl := List.mem_singleton.mp member
      simp [Op.pushNarrow, Op.target?] at aims
    | always =>
      obtain rfl := List.mem_singleton.mp member
      exact ⟨_, List.mem_cons_of_mem _ List.mem_cons_self, aims⟩
    | never | identity => simp at member

theorem spares_shortens {index : Nat} {group replacement : List Op}
    (shortens : Shortens index group replacement) :
    Op.jumpDest ∉ group := by
  obtain ⟨folds, _⟩ := shortens
  cases folds with
  | identity same =>
    obtain ⟨binary, rfl, _⟩ := eval_of_isIdentity same
    simp
  | _ => simp

theorem changes_of_notes {skip index : Nat} {ops : List Op}
    (given : (edits skip index ops).2 ≠ []) :
    (edits skip index ops).1.any Option.isSome = true := by
  fun_induction edits skip index ops <;> simp_all

end Folding

namespace Packing

theorem encodedLength_lt {op other : Op} (found : narrow? op = some other) :
    other.encodedLength < op.encodedLength := by
  unfold narrow? at found
  split at found
  · obtain ⟨small, same⟩ := Option.ite_none_right_eq_some.mp found
    obtain rfl := Option.some.inj same
    simp [Op.encodedLength, Op.slotBytes, small]
  · obtain ⟨small, same⟩ := Option.ite_none_right_eq_some.mp found
    obtain rfl := Option.some.inj same
    simp [Op.encodedLength, Op.slotBytes, small]
  · obtain ⟨small, same⟩ := Option.ite_none_right_eq_some.mp found
    obtain rfl := Option.some.inj same
    simp only [Op.pushNarrow, Op.encodedLength]
    omega
  · simp at found

theorem saves_packs : Saves Packs where
  tail := (sound_packs : Sound True ⟨[]⟩ (fun _ => True) Packs).tail
  size := by
    intro index group replacement packs
    cases packs with
    | narrow found => exact Nat.add_le_add_right (Nat.le_of_lt (encodedLength_lt found)) 0
  weight := by
    intro index group replacement packs
    cases packs with
    | narrow found => exact Nat.add_lt_add_right (Nat.add_lt_add_right (encodedLength_lt found) 0) 1
  targets := by
    intro index group replacement packs op member target aims
    cases packs with
    | narrow found =>
      obtain rfl := List.mem_singleton.mp member
      simp [(narrow?_eq_some found).2.otherStill] at aims

theorem spares_packs {index : Nat} {group replacement : List Op}
    (packs : Packs index group replacement) :
    Op.jumpDest ∉ group := by
  cases packs with
  | @narrow op other found =>
    intro member
    obtain rfl := List.mem_singleton.mp member
    simp [narrow?] at found

end Packing

namespace RepeatedLoads

/-- A copy of a value takes fewer bytes than a load. -/
theorem saves_reuses : Saves Reuses where
  tail := (sound_reuses : Sound True ⟨[]⟩ (fun _ => True) Reuses).tail
  size := by
    intro index group replacement reuses
    cases reuses <;> simp only [Folding.size, List.map_cons, List.map_nil, total, Op.encodedLength]
      <;> omega
  weight := by
    intro index group replacement reuses
    have pos (slot : UInt32) (wide : Bool) : 0 < Op.slotBytes slot wide := by
      unfold Op.slotBytes
      split <;> decide
    cases reuses with
    | @forwarded slot wide other =>
      have more := pos slot other
      simp only [Folding.size, List.map_cons, List.map_nil, total, Op.encodedLength,
        List.length_cons]
      omega
    | @repeated slot wide other =>
      have more := pos slot other
      simp only [Folding.size, List.map_cons, List.map_nil, total, Op.encodedLength,
        List.length_cons]
      omega
  targets := by
    intro index group replacement reuses op member target aims
    cases reuses <;> simp at member <;> rcases member with rfl | rfl <;> simp [Op.target?] at aims

theorem spares_reuses {index : Nat} {group replacement : List Op}
    (reuses : Reuses index group replacement) :
    Op.jumpDest ∉ group := by
  cases reuses <;> simp

theorem changes_of_notes {ops : List Op} (given : (edits ops).2 ≠ []) :
    (edits ops).1.any Option.isSome = true := by
  fun_induction edits ops <;> simp_all

end RepeatedLoads

namespace Transformation

def edits : Transformation → Program → Edits
  | deadCode, program =>
    (DeadCode.edits program.reachable (DeadCode.targets program program.reachable) 0 program.ops).1
  | folding, program => (Folding.edits 0 0 program.ops).1
  | packing, program => program.ops.map fun op => (Packing.narrow? op).map fun narrow => [narrow]
  | repeatedLoads, program => (RepeatedLoads.edits program.ops).1

variable {program : Program} {transformation : Transformation} {reduction : Reduction}

theorem program_of_reduce? (reduced : transformation.reduce? program = some reduction) :
    reduction.program = program.splice (transformation.edits program) := by
  cases transformation with
  | deadCode =>
    obtain ⟨_, same⟩ := Option.ite_none_left_eq_some.mp reduced
    exact (congrArg Reduction.program (Option.some.inj same)).symm
  | folding =>
    obtain ⟨_, same⟩ := Option.ite_none_left_eq_some.mp reduced
    exact (congrArg Reduction.program (Option.some.inj same)).symm
  | packing =>
    obtain ⟨_, same⟩ := Option.ite_none_left_eq_some.mp reduced
    exact (congrArg Reduction.program (Option.some.inj same)).symm
  | repeatedLoads =>
    obtain ⟨_, same⟩ := Option.ite_none_left_eq_some.mp reduced
    exact (congrArg Reduction.program (Option.some.inj same)).symm

theorem changes_of_reduce? (reduced : transformation.reduce? program = some reduction) :
    (transformation.edits program).any Option.isSome = true := by
  cases transformation with
  | deadCode =>
    obtain ⟨given, _⟩ := Option.ite_none_left_eq_some.mp reduced
    exact DeadCode.changes_of_reasons fun none => given (List.isEmpty_iff.mpr none)
  | folding =>
    obtain ⟨given, _⟩ := Option.ite_none_left_eq_some.mp reduced
    exact Folding.changes_of_notes fun none => given (List.isEmpty_iff.mpr none)
  | packing =>
    obtain ⟨given, _⟩ := Option.ite_none_left_eq_some.mp reduced
    obtain ⟨op, member⟩ := List.exists_mem_of_ne_nil _ fun none => given (List.isEmpty_iff.mpr none)
    obtain ⟨listed, narrows⟩ := List.mem_filter.mp member
    simp only [edits, List.any_map, List.any_eq_true]
    exact ⟨op, listed, by simpa using narrows⟩
  | repeatedLoads =>
    obtain ⟨given, _⟩ := Option.ite_none_left_eq_some.mp reduced
    exact RepeatedLoads.changes_of_notes fun none => given (List.isEmpty_iff.mpr none)

theorem shrinks (lands : program.JumpsLand)
    (reduced : transformation.reduce? program = some reduction) :
    program.Shrinks (transformation.edits program) := by
  have changed := changes_of_reduce? reduced
  cases transformation with
  | deadCode =>
    exact shrinks_of_rewrites DeadCode.saves_removes (DeadCode.rewrites_edits _ _ 0 _) changed
      (DeadCode.lands_splice lands)
  | folding =>
    have rewrites := Folding.rewrites_edits 0 program.ops
    exact shrinks_of_rewrites Folding.saves_shortens rewrites changed
      (lands_of_rewrites lands Folding.saves_shortens Folding.spares_shortens rewrites)
  | packing =>
    have rewrites := Packing.rewrites_edits 0 program.ops
    exact shrinks_of_rewrites Packing.saves_packs rewrites changed
      (lands_of_rewrites lands Packing.saves_packs Packing.spares_packs rewrites)
  | repeatedLoads =>
    have rewrites := RepeatedLoads.rewrites_edits 0 program.ops
    exact shrinks_of_rewrites RepeatedLoads.saves_reuses rewrites changed
      (lands_of_rewrites lands RepeatedLoads.saves_reuses RepeatedLoads.spares_reuses rewrites)

end Transformation

/-! Where jumps lead after splicing. The spliced program is what stands for each operation, one
after another; a jump in it that led to a jump destination leads to the place at which that jump
destination stands now. -/

namespace Edits

variable {edits : Edits} {ops : List Op}

/-- What stands for each operation: the operation itself if it is kept, else its replacement. -/
def pieces (edits : Edits) (ops : List Op) : List (List Op) :=
  ops.mapIdx fun index op => (edits.getD index none).getD [op]

def image (edits : Edits) (ops : List Op) (index : Nat) : Nat :=
  ((edits.pieces ops).take index).flatten.length

theorem segments_eq_pieces (edits : Edits) (ops : List Op) :
    edits.segments ops = edits.pieces ops := by
  fun_induction segments edits ops with
  | case1 edits => rfl
  | case2 op rest ih => rw [ih, pieces, pieces, List.mapIdx_cons]; rfl
  | case3 edits op rest ih => rw [ih, pieces, pieces, List.mapIdx_cons]; rfl
  | case4 replacement edits op rest ih => rw [ih, pieces, pieces, List.mapIdx_cons]; rfl

theorem place_eq_image {index : Nat} (inside : index ≤ ops.length) :
    edits.place ops index = edits.image ops index := by
  rw [place_eq inside, segments_eq_pieces, image]

theorem Keeps.piece {index : Nat} {op : Op} (keeps : edits.Keeps index)
    (found : ops[index]? = some op) :
    (edits.pieces ops)[index]? = some [op] := by
  rw [pieces, List.getElem?_mapIdx, found, Option.map_some, keeps, Option.getD_none]

theorem mem_pieces {op : Op} (member : op ∈ (edits.pieces ops).flatten) :
    (∃ index : Nat, ops[index]? = some op ∧ edits.Keeps index) ∨
      ∃ index < ops.length, ∃ replacement, edits[index]? = some (some replacement) ∧
      op ∈ replacement := by
  obtain ⟨piece, listed, inside⟩ := List.mem_flatten.mp member
  obtain ⟨index, bound, rfl⟩ := List.mem_mapIdx.mp listed
  cases edit : edits.getD index none with
  | none =>
    rw [edit] at inside
    obtain rfl : op = ops[index] := by simpa using inside
    exact .inl ⟨index, List.getElem?_eq_getElem bound, edit⟩
  | some replacement =>
    rw [edit] at inside
    have made : edits[index]? = some (some replacement) := by
      rw [List.getD_eq_getElem?_getD] at edit
      cases found : edits[index]? with
      | none => simp [found] at edit
      | some here => simpa [found] using edit
    exact .inr ⟨index, bound, replacement, made, inside⟩

end Edits

theorem Op.mapTarget_congr {op : Op} {move other : Nat → Nat}
    (same : ∀ target, op.target? = some target → move target = other target) :
    op.mapTarget move = op.mapTarget other := by
  cases op with
  | jump target => exact congrArg Op.jump (same target rfl)
  | jumpIf target => exact congrArg Op.jumpIf (same target rfl)
  | _ => rfl

section

variable {program : Program} {edits : Edits}

theorem ops_splice_of_pieces
    (inside : ∀ op ∈ (edits.pieces program.ops).flatten, ∀ target, op.target? = some target →
      target ≤ program.ops.length) :
    (program.splice edits).ops =
      (edits.pieces program.ops).flatten.map fun op => op.mapTarget (edits.image program.ops) := by
  rw [Program.ops_splice, Edits.segments_eq_pieces]
  exact List.map_congr_left fun op member =>
    Op.mapTarget_congr fun target aims => Edits.place_eq_image (inside op member target aims)

/-- Splicing keeps jumps on target. Let all jumps of a program lead to jump destinations; let edits
keep all operations that kept and new jumps lead to, and let new jumps lead to jump destinations of
the program before. Then the spliced program is what stands for each operation, in order and with
its target moved; all its jumps lead to jump destinations; and where a jump led to is the jump
destination that stands now for the one it led to before. -/
theorem splice_keeps_targets (lands : program.JumpsLand)
    (kept : ∀ (index : Nat) (op : Op) (target : Nat), program.ops[index]? = some op →
      edits.Keeps index →
      op.target? = some target → edits.Keeps target)
    (inserted : ∀ (index : Nat) (replacement : List Op), index < program.ops.length →
      edits[index]? = some (some replacement) → ∀ op ∈ replacement, ∀ target,
        op.target? = some target →
        program.ops[target]? = some .jumpDest ∧ edits.Keeps target) :
    let pieces := edits.pieces program.ops
    let image := edits.image program.ops
    (program.splice edits).ops = pieces.flatten.map (fun op => op.mapTarget image) ∧
      (program.splice edits).JumpsLand ∧
      ∀ (index : Nat) (op : Op) (target : Nat), pieces.flatten[index]? = some op →
      op.target? = some target →
        program.ops[target]? = some .jumpDest ∧ pieces[target]? = some [.jumpDest] ∧
          (program.splice edits).ops[index]? = some (op.mapTarget image) ∧
          (op.mapTarget image).target? = some (image target) ∧
          (program.splice edits).ops[image target]? = some .jumpDest := by
  intro pieces image
  have aimed (op : Op) (member : op ∈ pieces.flatten) (target : Nat)
      (aims : op.target? = some target) :
      program.ops[target]? = some .jumpDest ∧ edits.Keeps target := by
    rcases Edits.mem_pieces member with ⟨index, found, keeps⟩
      | ⟨index, bound, replacement, made, inside⟩
    · exact ⟨lands index op target found aims, kept index op target found keeps aims⟩
    · exact inserted index replacement bound made op inside target aims
  have within (op : Op) (member : op ∈ pieces.flatten) (target : Nat)
      (aims : op.target? = some target) :
      target ≤ program.ops.length :=
    Nat.le_of_lt (List.getElem?_eq_some_iff.mp (aimed op member target aims).1).1
  have whole : (program.splice edits).ops = pieces.flatten.map fun op => op.mapTarget image :=
    ops_splice_of_pieces within
  have arrives (op : Op) (member : op ∈ pieces.flatten) (target : Nat)
      (aims : op.target? = some target) :
      (program.splice edits).ops[image target]? = some .jumpDest := by
    obtain ⟨stood, keeps⟩ := aimed op member target aims
    have there := keeps.found stood
    rwa [Edits.place_eq_image (within op member target aims)] at there
  refine ⟨whole, ?_, ?_⟩
  · intro index op target found aims
    rw [whole, List.getElem?_map, Option.map_eq_some_iff] at found
    obtain ⟨old, there, rfl⟩ := found
    rw [Op.target?_mapTarget, Option.map_eq_some_iff] at aims
    obtain ⟨before, leads, rfl⟩ := aims
    exact arrives old (List.mem_of_getElem? there) before leads
  · intro index op target found aims
    have member : op ∈ pieces.flatten := List.mem_of_getElem? found
    obtain ⟨stood, keeps⟩ := aimed op member target aims
    refine ⟨stood, keeps.piece stood, ?_, ?_, arrives op member target aims⟩
    · rw [whole, List.getElem?_map, found, Option.map_some]
    · rw [Op.target?_mapTarget, aims, Option.map_some]

/-- A loop whose test is dropped, and in which a jump back becomes a push, a jump ahead and the jump
back: each jump leads to where its jump destination stands now. -/
theorem splice_keeps_targets_of_loop :
    let program : Program := ⟨[.jumpDest, .push 1 .one, .jumpIf 5, .pop, .jump 0, .jumpDest, .stop]⟩
    let edits : Edits := [none, some [], none, none, some [.push 7 .one, .jumpIf 5, .jump 0]]
    (program.splice edits).ops =
        [.jumpDest, .jumpIf 6, .pop, .push 7 .one, .jumpIf 6, .jump 0, .jumpDest, .stop] ∧
      (program.splice edits).JumpsLand ∧ edits.image program.ops 5 = 6 ∧
      (program.splice edits).ops[edits.image program.ops 5]? = some .jumpDest := by
  intro program edits
  have lands : program.JumpsLand := Program.strayJump?_eq_none.mp (by decide)
  have keepsKept : ∀ index < program.ops.length, ∀ op ∈ program.ops[index]?, ∀ target ∈ op.target?,
      edits.getD target none = none := by decide
  have keepsMade : ∀ replacement ∈ edits.filterMap id, ∀ op ∈ replacement, ∀ target ∈ op.target?,
      program.ops[target]? = some .jumpDest ∧ edits.getD target none = none := by decide
  obtain ⟨whole, stays, arrives⟩ := splice_keeps_targets lands
    (fun index op target found _ aims =>
      keepsKept index (List.getElem?_eq_some_iff.mp found).1 op found target aims)
    (fun index replacement _ made op member target aims =>
      keepsMade replacement (List.mem_filterMap.mpr ⟨_, List.mem_of_getElem? made, rfl⟩) op member
        target aims)
  refine ⟨?_, stays, by decide, (arrives 1 (.jumpIf 5) 5 (by decide) (by decide)).2.2.2.2⟩
  rw [whole]
  decide

end

end Bytecode

end Covenant
