import Covenant.Bytecode.Peephole.Splice
import Covenant.Proofs.Bytecode.Codec
import Covenant.Proofs.Bytecode.Runs

/-!
Splicing keeps what a program does. Edits replace groups of operations; if what stands for each
group does the same as the group, with no more steps and no more stack, then the spliced program
ends each run as the program before.
-/

namespace Covenant

namespace Bytecode

/-! Where operations move. -/

namespace Edits

variable {edits : Edits} {ops : List Op}

theorem length_segments (edits : Edits) (ops : List Op) :
    (edits.segments ops).length = ops.length := by
  fun_induction segments edits ops with
  | case1 edits => rfl
  | case2 op rest ih => simp only [List.length_cons, ih]
  | case3 edits op rest ih => simp only [List.length_cons, ih]
  | case4 replacement edits op rest ih => simp only [List.length_cons, ih]

theorem drop_segments (edits : Edits) (ops : List Op) (count : Nat) :
    (edits.segments ops).drop count = segments (edits.drop count) (ops.drop count) := by
  induction count generalizing edits ops with
  | zero => rfl
  | succ count ih =>
    cases ops with
    | nil => simp [segments]
    | cons op rest =>
      cases edits with
      | nil =>
        simp only [segments, List.drop_succ_cons, List.drop_nil]
        rw [ih, List.drop_nil]
      | cons edit edits =>
        cases edit <;> simp only [segments, List.drop_succ_cons, ih]

theorem segments_group (replacement : List Op) (first : Op) (others rest : List Op)
    (edits : Edits) :
    segments (some replacement :: others.map (fun _ => some []) ++ edits)
      (first :: others ++ rest) =
      replacement :: others.map (fun _ => []) ++ segments edits rest := by
  have tail (others : List Op) : segments (others.map (fun _ => some []) ++ edits)
    (others ++ rest) =
      others.map (fun _ => []) ++ segments edits rest := by
    induction others with
    | nil => rfl
    | cons op others ih => simp only [List.map_cons, List.cons_append, segments, ih]
  simp only [List.cons_append, segments, tail]

theorem flatten_segments_nil (ops : List Op) : (segments [] ops).flatten = ops := by
  induction ops with
  | nil => rfl
  | cons op rest ih => simp [segments, ih]

theorem flatten_blank (others : List Op) : (others.map fun _ => ([] : List Op)).flatten = [] := by
  induction others with
  | nil => rfl
  | cons op others ih => simp

theorem getElem?_starts (segments : List (List Op)) (position index : Nat)
    (inside : index ≤ segments.length) :
    (starts position segments)[index]? =
      some (position + (segments.take index).flatten.length) := by
  induction segments generalizing position index with
  | nil =>
    obtain rfl : index = 0 := by simpa using inside
    simp [starts]
  | cons segment rest ih =>
    cases index with
    | zero => simp [starts]
    | succ index =>
      simp only [starts, List.getElem?_cons_succ, List.take_succ_cons, List.flatten_cons,
        List.length_append]
      rw [ih _ _ (by simpa using inside)]
      simp only [Nat.add_assoc]

def place (edits : Edits) (ops : List Op) (index : Nat) : Nat :=
  (starts 0 (edits.segments ops)).getD index index

theorem place_eq {index : Nat} (inside : index ≤ ops.length) :
    edits.place ops index = ((edits.segments ops).take index).flatten.length := by
  have found := getElem?_starts (edits.segments ops) 0 index (by rwa [length_segments])
  rw [place, List.getD_eq_getElem?_getD, found]
  simp

theorem place_zero (edits : Edits) (ops : List Op) : edits.place ops 0 = 0 := by
  rw [place_eq (Nat.zero_le _)]
  simp

theorem place_add {index count : Nat} (inside : index + count ≤ ops.length) :
    edits.place ops (index + count) =
      edits.place ops index +
      ((segments (edits.drop index) (ops.drop index)).take count).flatten.length := by
  rw [place_eq inside, place_eq (by omega), ← drop_segments, List.take_add, List.flatten_append,
    List.length_append]

end Edits

namespace Program

variable {program : Program} {edits : Edits}

theorem ops_splice (program : Program) (edits : Edits) :
    (program.splice edits).ops =
      (edits.segments program.ops).flatten.map fun op => op.mapTarget (edits.place program.ops) :=
  rfl

theorem drop_splice (edits : Edits) {index : Nat} (inside : index ≤ program.ops.length) :
    (program.splice edits).ops.drop (edits.place program.ops index) =
      (Edits.segments (edits.drop index) (program.ops.drop index)).flatten.map fun op =>
        op.mapTarget (edits.place program.ops) := by
  have whole := List.take_append_drop index (edits.segments program.ops)
  rw [ops_splice, Edits.place_eq inside, ← whole, List.flatten_append, List.map_append,
    List.drop_left' (by rw [List.length_map, whole]), Edits.drop_segments]

end Program

/-! Groups of operations and what stands for them. -/

inductive Rewrites (rule : Nat → List Op → List Op → Prop) : Nat → List Op → Edits → Prop
  | done {index ops} : Rewrites rule index ops []
  | keep {index op rest edits} : Rewrites rule (index + 1) rest edits →
      Rewrites rule index (op :: rest) (none :: edits)
  | group {index first others replacement rest edits} : rule index (first :: others) replacement →
      Rewrites rule (index + (others.length + 1)) rest edits →
      Rewrites rule index (first :: others ++ rest)
        (some replacement :: others.map (fun _ => some []) ++ edits)

/-- A jump destination starts a group or is kept, if no group holds one behind its first operation.
-/
theorem Rewrites.drop {rule : Nat → List Op → List Op → Prop}
    (tail : ∀ {index first others replacement}, rule index (first :: others) replacement →
      Op.jumpDest ∉ others)
    {index : Nat} {ops : List Op} {edits : Edits} (rewrites : Rewrites rule index ops edits)
    {count : Nat} (lands : ops[count]? = some .jumpDest) :
    Rewrites rule (index + count) (ops.drop count) (edits.drop count) := by
  induction rewrites generalizing count with
  | done => simpa using Rewrites.done
  | @keep index op rest edits later ih =>
    cases count with
    | zero => exact .keep later
    | succ count =>
      have behind : Rewrites rule (index + 1 + count) (rest.drop count) (edits.drop count) :=
        ih lands
      rw [Nat.add_right_comm, Nat.add_assoc] at behind
      exact behind
  | @group index first others replacement rest edits ruled later ih =>
    cases count with
    | zero => exact .group ruled later
    | succ count =>
      have there : (others ++ rest)[count]? = some .jumpDest := lands
      by_cases inside : count < others.length
      · rw [List.getElem?_append_left inside] at there
        exact absurd (List.mem_of_getElem? there) (tail ruled)
      · obtain ⟨further, rfl⟩ : ∃ further, count = others.length + further :=
          ⟨count - others.length, by omega⟩
        rw [List.getElem?_append_right (by omega), Nat.add_sub_cancel_left] at there
        have behind := ih there
        have codeThere : (first :: others ++ rest).drop (others.length + further + 1) =
            rest.drop further := by
          simp [List.drop_append]
        have editsThere : (some replacement :: others.map (fun _ => some []) ++ edits).drop
            (others.length + further + 1) = edits.drop further := by
          simp [List.drop_append]
        rw [codeThere, editsThere]
        rw [show index + (others.length + further + 1) = index + (others.length + 1) +
          further by omega]
        exact behind

structure Covers (ops : List Op) (visited : Nat → Prop) : Prop where
  first : visited 0
  next : ∀ {index op}, visited index → ops[index]? = some op → op.isTerminal = false →
    visited (index + 1)
  target : ∀ {index op target}, visited index → ops[index]? = some op → op.target? = some target →
    visited target

/-- How a run goes on that stands at the start of a group: in the changed code it ends as before, or
it gets with no more steps to where it stands before in the same state, past the group or at a jump
destination. -/
inductive Advances (roomy : Prop) (ops code : List Op) (input : MachineInput) (move : Nat → Nat)
    (visited : Nat → Prop) (stop fuel : Nat) (state : MachineState) (halt : Halt)
    (final : MachineState) : Prop
  | ends (place : Nat) : Ends roomy code input fuel (state.moved (move state.next)) halt
      (final.moved place) →
      Advances roomy ops code input move visited stop fuel state halt final
  | goes {less count : Nat} {next : MachineState} : Ends roomy ops input less next halt final →
      next.next = stop ∨ ops[next.next]? = some .jumpDest → visited next.next →
      Steps roomy code input count (state.moved (move state.next)) (next.moved (move next.next)) →
      less < fuel → less + count ≤ fuel →
      Advances roomy ops code input move visited stop fuel state halt final

structure Sound (roomy : Prop) (program : Program) (visited : Nat → Prop)
    (rule : Nat → List Op → List Op → Prop) : Prop where
  fits : ∀ {index group replacement}, rule index group replacement →
    (∀ op ∈ group, op.fits = true) →
    ∀ op ∈ replacement, op.fits = true
  tail : ∀ {index first others replacement}, rule index (first :: others) replacement →
    Op.jumpDest ∉ others
  advances : ∀ {index group replacement}, rule index group replacement → visited index →
    group <+: program.ops.drop index → ∀ (code : List Op) (move : Nat → Nat),
    replacement.map (fun op => op.mapTarget move) <+: code.drop (move index) →
    move (index + group.length) = move index + replacement.length →
    ∀ {input : MachineInput} {fuel : Nat} {state : MachineState} {halt : Halt}
      {final : MachineState},
    state.next = index → Ends roomy program.ops input fuel state halt final →
    Advances roomy program.ops code input move visited (index + group.length) fuel state halt final

structure Op.Alike (op other : Op) : Prop where
  still : op.target? = none
  otherStill : other.target? = none
  run : ∀ (input : MachineInput) (state : MachineState), state.run input other = state.run input op
  isLoad : other.isLoad = op.isLoad

/-- A step leads from a place that is visited to another one. -/
theorem Covers.step {ops : List Op} {visited : Nat → Prop} (covers : Covers ops visited)
    {input : MachineInput} {state next : MachineState} {op : Op}
    (found : ops[state.next]? = some op) (ran : state.past.run input op = .running next)
    (seen : visited state.next) : visited next.next := by
  cases aims : op.target? with
  | none =>
    have place : next.next = state.next + 1 := MachineState.next_of_run aims ran
    have goesOn : op.isTerminal = false := by
      rw [Bool.eq_false_iff]
      exact fun ends => MachineState.not_running_of_isTerminal ends aims ran
    rw [place]
    exact covers.next seen found goesOn
  | some target =>
    have seenTarget := covers.target seen found aims
    cases op with
    | jump aim =>
      obtain rfl := Option.some.inj aims
      obtain rfl := MachineStep.running.inj ran
      exact seenTarget
    | jumpIf aim =>
      obtain rfl := Option.some.inj aims
      obtain ⟨condition, stack, held, rfl⟩ := MachineState.run_jumpIf_eq_running.mp ran
      by_cases zero : condition = 0
      · simp only [zero, if_true]
        exact covers.next seen found rfl
      · simp only [zero, if_false]
        exact seenTarget
    | _ => simp [Op.target?] at aims

section Advances

variable {roomy : Prop} {program : Program} {visited : Nat → Prop} {code : List Op}
  {move : Nat → Nat} {input : MachineInput} {fuel : Nat} {state final : MachineState} {halt : Halt}

/-- A run goes on past an operation in whose place one stands that does the same. -/
theorem advances_alike (covers : Covers program.ops visited) {op other : Op}
    (alike : op.Alike other) (found : program.ops[state.next]? = some op)
    (there : code[move state.next]? = some other)
    (past : move (state.next + 1) = move state.next + 1) (seen : visited state.next)
    (ends : Ends roomy program.ops input fuel state halt final) :
    Advances roomy program.ops code input move visited (state.next + 1) fuel state halt final := by
  have here : code[(state.moved (move state.next)).next]? = some other := there
  have same (place : Nat) : (state.past.moved place).run input other =
      (state.past.run input op).moved place := by
    rw [alike.run, MachineState.run_moved _ _ alike.still]
  cases ends with
  | off outside => simp [found] at outside
  | halt ahead ran proper =>
    obtain rfl := Option.some.inj (found.symm.trans ahead)
    refine .ends (move state.next + 1) (.halt here ?_ proper)
    exact (same _).trans (by rw [ran]; rfl)
  | @step less _ _ next halt final ahead ran room rest =>
    obtain rfl := Option.some.inj (found.symm.trans ahead)
    have place : next.next = state.next + 1 := MachineState.next_of_run alike.still ran
    refine .goes rest (.inl place) (covers.step found ran seen) ?_ (Nat.lt_succ_self _)
      (Nat.le_refl _)
    rw [place, past]
    refine .one here ((same _).trans (by rw [ran]; rfl)) ?_
    intro strict loads
    exact room strict (alike.isLoad ▸ loads)

/-- A run goes on past an operation that is kept. -/
theorem advances_kept (lands : program.JumpsLand) (covers : Covers program.ops visited) {op : Op}
    (found : program.ops[state.next]? = some op)
    (there : code[move state.next]? = some (op.mapTarget move))
    (past : move (state.next + 1) = move state.next + 1) (seen : visited state.next)
    (ends : Ends roomy program.ops input fuel state halt final) :
    Advances roomy program.ops code input move visited (state.next + 1) fuel state halt final := by
  cases aims : op.target? with
  | none =>
    rw [Op.mapTarget_of_still aims] at there
    exact advances_alike covers ⟨aims, aims, fun _ _ => rfl, rfl⟩ found there past seen ends
  | some target =>
    have leads := lands _ _ _ found aims
    obtain ⟨less, next, rfl, ran, room, rest⟩ := ends.next found (.inr (by simp [aims]))
    have seenNext := covers.step found ran seen
    have here : code[(state.moved (move state.next)).next]? = some (op.mapTarget move) := there
    cases op with
    | jump aim =>
      obtain rfl := Option.some.inj aims
      obtain rfl := MachineStep.running.inj ran
      exact .goes rest (.inr leads) seenNext
        (.one here rfl (by simp [MachineState.HasRoom, Op.mapTarget, Op.isLoad]))
        (Nat.lt_succ_self _) (Nat.le_refl _)
    | jumpIf aim =>
      obtain rfl := Option.some.inj aims
      obtain ⟨condition, stack, held, rfl⟩ := MachineState.run_jumpIf_eq_running.mp ran
      have goes (place : Nat)
          (placed : (if condition = 0 then move state.next + 1 else move aim) = place) :
          Steps roomy code input 1 (state.moved (move state.next))
            { state.moved place with stack } :=
        .one here (MachineState.run_jumpIf_eq_running.mpr
          ⟨condition, stack, held, by rw [← placed]; rfl⟩)
          (by simp [MachineState.HasRoom, Op.mapTarget, Op.isLoad])
      by_cases zero : condition = 0
      · simp only [zero, if_true] at rest seenNext
        refine .goes rest (.inl rfl) seenNext ?_ (Nat.lt_succ_self _) (Nat.le_refl _)
        exact goes _ (by rw [if_pos zero]; exact past.symm)
      · simp only [zero, if_false] at rest seenNext
        refine .goes rest (.inr leads) seenNext ?_ (Nat.lt_succ_self _) (Nat.le_refl _)
        exact goes _ (if_neg zero)
    | _ => simp [Op.target?] at aims

end Advances

section Splice

variable {roomy : Prop} {program : Program} {edits : Edits} {visited : Nat → Prop}
  {rule : Nat → List Op → List Op → Prop} {input : MachineInput}

theorem replaced_of_segments {index : Nat} {others replacement : List Op} {more : List (List Op)}
    (inside : index + (others.length + 1) ≤ program.ops.length)
    (segments : Edits.segments (edits.drop index) (program.ops.drop index) =
      replacement :: others.map (fun _ => []) ++ more) :
    replacement.map (fun op => op.mapTarget (edits.place program.ops)) <+:
        (program.splice edits).ops.drop (edits.place program.ops index) ∧
      edits.place program.ops (index + (others.length + 1)) = edits.place program.ops index +
        replacement.length := by
  constructor
  · rw [Program.drop_splice edits (by omega), segments]
    simp
  · have group : (replacement :: others.map (fun _ => []) ++ more).take (others.length + 1) =
        replacement :: others.map fun _ => [] := List.take_left' (by simp)
    rw [Edits.place_add inside, segments, group, List.flatten_cons, Edits.flatten_blank,
      List.append_nil]

theorem kept_of_segments {index : Nat} {op : Op} {more : List (List Op)}
    (found : program.ops[index]? = some op)
    (segments : Edits.segments (edits.drop index) (program.ops.drop index) = [op] :: more) :
    (program.splice edits).ops[edits.place program.ops index]? =
      some (op.mapTarget (edits.place program.ops)) ∧
      edits.place program.ops (index + 1) = edits.place program.ops index + 1 := by
  have inside : index + (([] : List Op).length + 1) ≤ program.ops.length :=
    (List.getElem?_eq_some_iff.mp found).1
  obtain ⟨⟨behind, split⟩, place⟩ := replaced_of_segments inside segments
  have first := congrArg (fun code => code[0]?) split
  exact ⟨by simpa [List.getElem?_drop] using first.symm, place⟩

/-- Whether a group starts where a state stands, or an operation that is kept. -/
structure Starts (program : Program) (edits : Edits) (visited : Nat → Prop)
    (rule : Nat → List Op → List Op → Prop) (state : MachineState) : Prop where
  inside : state.next ≤ program.ops.length
  seen : visited state.next
  stands : Rewrites rule state.next (program.ops.drop state.next) (edits.drop state.next)

theorem starts_of_arrives {stop : Nat} {next : MachineState}
    (sound : Sound roomy program visited rule)
    (rewrites : Rewrites rule 0 program.ops edits) (reach : stop ≤ program.ops.length)
    (behind : Rewrites rule stop (program.ops.drop stop) (edits.drop stop))
    (arrives : next.next = stop ∨ program.ops[next.next]? = some .jumpDest)
    (seen : visited next.next) : Starts program edits visited rule next := by
  rcases arrives with rfl | landed
  · exact ⟨reach, seen, behind⟩
  · refine ⟨Nat.le_of_lt (List.getElem?_eq_some_iff.mp landed).1, seen, ?_⟩
    have dropped := rewrites.drop sound.tail landed
    rwa [Nat.zero_add] at dropped

section Run

variable {fuel : Nat} {state final : MachineState} {halt : Halt}

theorem ends_splice_off (inside : state.next ≤ program.ops.length)
    (codeAt : program.ops.drop state.next = []) (editsAt : edits.drop state.next = [])
    (ends : Ends roomy program.ops input fuel state halt final) :
    ∃ place, Ends roomy (program.splice edits).ops input fuel
      (state.moved (edits.place program.ops state.next)) halt (final.moved place) := by
  have outside : program.ops[state.next]? = none :=
    List.getElem?_eq_none_iff.mpr (List.drop_eq_nil_iff.mp codeAt)
  have ended := Program.drop_splice edits inside
  rw [codeAt, editsAt] at ended
  have beyond : (program.splice edits).ops[edits.place program.ops state.next]? = none :=
    List.getElem?_eq_none_iff.mpr (List.drop_eq_nil_iff.mp ended)
  cases ends with
  | off => exact ⟨_, .off beyond⟩
  | halt found => simp [outside] at found
  | step found => simp [outside] at found

theorem advances_keep (lands : program.JumpsLand) (covers : Covers program.ops visited) {op : Op}
    {rest : List Op} {later : Edits} {more : List (List Op)} (seen : visited state.next)
    (codeAt : program.ops.drop state.next = op :: rest)
    (editsBehind : edits.drop (state.next + 1) = later)
    (segments : Edits.segments (edits.drop state.next) (program.ops.drop state.next) = [op] :: more)
    (behind : Rewrites rule (state.next + 1) rest later)
    (ends : Ends roomy program.ops input fuel state halt final) :
    ∃ stop ≤ program.ops.length, Rewrites rule stop (program.ops.drop stop) (edits.drop stop) ∧
      Advances roomy program.ops (program.splice edits).ops input (edits.place program.ops) visited
        stop fuel state halt final := by
  have found : program.ops[state.next]? = some op := by
    have first := congrArg (fun code => code[0]?) codeAt
    simpa [List.getElem?_drop] using first
  have codeBehind : program.ops.drop (state.next + 1) = rest := by
    rw [← List.drop_drop, codeAt]
    rfl
  obtain ⟨there, past⟩ := kept_of_segments found segments
  refine ⟨state.next + 1, (List.getElem?_eq_some_iff.mp found).1, ?_,
    advances_kept lands covers found there past seen ends⟩
  rw [codeBehind, editsBehind]
  exact behind

/-- One step of the argument: a run gets past the group that starts where it stands, or ends. -/
theorem Starts.exists_advances (starts : Starts program edits visited rule state)
    (lands : program.JumpsLand) (covers : Covers program.ops visited)
    (sound : Sound roomy program visited rule)
    (ends : Ends roomy program.ops input fuel state halt final) :
    ∃ stop ≤ program.ops.length, Rewrites rule stop (program.ops.drop stop) (edits.drop stop) ∧
      Advances roomy program.ops (program.splice edits).ops input (edits.place program.ops) visited
        stop fuel state halt final := by
  obtain ⟨inside, seen, stands⟩ := starts
  generalize codeAt : program.ops.drop state.next = code at stands
  generalize editsAt : edits.drop state.next = more at stands
  cases stands with
  | done =>
    cases code with
    | nil =>
      obtain ⟨place, ended⟩ := ends_splice_off inside codeAt editsAt ends
      exact ⟨state.next, inside, codeAt ▸ editsAt ▸ .done, .ends place ended⟩
    | cons op rest =>
      have noMore : edits.drop (state.next + 1) = [] := by
        rw [← List.drop_drop, editsAt]
        rfl
      have segments : Edits.segments (edits.drop state.next) (program.ops.drop state.next) =
          [op] :: Edits.segments [] rest := by
        rw [codeAt, editsAt]
        rfl
      exact advances_keep lands covers seen codeAt noMore segments .done ends
  | @keep _ op rest later behind =>
    have tail : edits.drop (state.next + 1) = later := by
      rw [← List.drop_drop, editsAt]
      rfl
    have segments : Edits.segments (edits.drop state.next) (program.ops.drop state.next) =
        [op] :: Edits.segments later rest := by
      rw [codeAt, editsAt]
      rfl
    exact advances_keep lands covers seen codeAt tail segments behind ends
  | @group _ first others replacement rest later ruled behind =>
    have count : others.length + 1 + rest.length = program.ops.length - state.next := by
      rw [← List.length_drop, codeAt]
      simp only [List.cons_append, List.length_cons, List.length_append]
      omega
    have segments := Edits.segments_group replacement first others rest later
    rw [← codeAt, ← editsAt] at segments
    have codeBehind : program.ops.drop (state.next + (others.length + 1)) = rest := by
      rw [← List.drop_drop, codeAt]
      simp
    have editsBehind : edits.drop (state.next + (others.length + 1)) = later := by
      rw [← List.drop_drop, editsAt]
      simp
    have reach : state.next + (others.length + 1) ≤ program.ops.length := by omega
    obtain ⟨there, past⟩ := replaced_of_segments reach segments
    have advances := sound.advances ruled seen (codeAt ▸ List.prefix_append _ _)
      (program.splice edits).ops (edits.place program.ops) there past rfl ends
    refine ⟨state.next + (others.length + 1), reach, ?_, advances⟩
    rw [codeBehind, editsBehind]
    exact behind

/-- The changed program ends each run as the program before, from wherever a group starts. By
induction on the steps that are left. -/
theorem ends_splice_from (lands : program.JumpsLand) (covers : Covers program.ops visited)
    (sound : Sound roomy program visited rule) (rewrites : Rewrites rule 0 program.ops edits)
    (ends : Ends roomy program.ops input fuel state halt final)
    (starts : Starts program edits visited rule state) :
    ∃ place, Ends roomy (program.splice edits).ops input fuel
      (state.moved (edits.place program.ops state.next)) halt (final.moved place) := by
  induction fuel using Nat.strongRecOn generalizing state with
  | _ fuel ih =>
    obtain ⟨stop, reach, behind, advances⟩ := starts.exists_advances lands covers sound ends
    cases advances with
    | ends place ended => exact ⟨place, ended⟩
    | @goes less count next rest arrives seen steps fewer enough =>
      obtain ⟨place, ended⟩ :=
        ih less fewer rest (starts_of_arrives sound rewrites reach behind arrives seen)
      exact ⟨place, (steps.ends ended).more enough⟩

end Run

theorem ends_splice (lands : program.JumpsLand) (covers : Covers program.ops visited)
    (sound : Sound roomy program visited rule) (rewrites : Rewrites rule 0 program.ops edits)
    {fuel : Nat} {halt : Halt} {final : MachineState}
    (ends : Ends roomy program.ops input fuel (Program.start input) halt final) :
    ∃ place, Ends roomy (program.splice edits).ops input fuel (Program.start input) halt
      (final.moved place) := by
  have moved := ends_splice_from lands covers sound rewrites ends
    ⟨Nat.zero_le _, covers.first, by simpa [Program.start] using rewrites⟩
  have start : (Program.start input).moved (edits.place program.ops (Program.start input).next) =
      Program.start input := by
    change (Program.start input).moved (edits.place program.ops 0) = _
    rw [Edits.place_zero]
    rfl
  rwa [start] at moved

end Splice

def Program.Follows (candidate program : Program) : Prop :=
  ∀ (fuel : Nat) (input : MachineInput), program.Completes fuel input →
    candidate.Completes fuel input ∧ candidate.observe fuel input = program.observe fuel input

theorem Program.Follows.refl (program : Program) : program.Follows program :=
  fun _ _ completes => ⟨completes, rfl⟩

theorem Program.Follows.trans {first second third : Program} (later : third.Follows second)
    (earlier : second.Follows first) : third.Follows first := by
  intro fuel input completes
  obtain ⟨middle, same⟩ := earlier fuel input completes
  obtain ⟨last, also⟩ := later fuel input middle
  exact ⟨last, also.trans same⟩

theorem Rewrites.fits {rule : Nat → List Op → List Op → Prop}
    (ruled : ∀ {index group replacement}, rule index group replacement →
      (∀ op ∈ group, op.fits = true) →
      ∀ op ∈ replacement, op.fits = true)
    {index : Nat} {ops : List Op} {edits : Edits} (rewrites : Rewrites rule index ops edits)
    (fits : ∀ op ∈ ops, op.fits = true) : ∀ op ∈ (edits.segments ops).flatten, op.fits = true := by
  induction rewrites with
  | done => rwa [Edits.flatten_segments_nil]
  | @keep index op rest edits later ih =>
    obtain ⟨first, others⟩ := List.forall_mem_cons.mp fits
    exact List.forall_mem_cons.mpr ⟨first, ih others⟩
  | @group index first others replacement rest edits meets later ih =>
    obtain ⟨group, behind⟩ := List.forall_mem_append.mp fits
    rw [Edits.segments_group, List.flatten_append, List.flatten_cons, Edits.flatten_blank,
      List.append_nil]
    exact List.forall_mem_append.mpr ⟨ruled meets group, ih behind⟩

inductive Program.Becomes (roomy : Prop) (program : Program) : Program → Prop
  | splice {visited : Nat → Prop} {rule : Nat → List Op → List Op → Prop} {edits : Edits} :
      Covers program.ops visited → Sound roomy program visited rule →
        Rewrites rule 0 program.ops edits →
      Becomes roomy program (program.splice edits)

namespace Program.Becomes

variable {roomy : Prop} {program candidate : Program}

theorem ends (becomes : program.Becomes roomy candidate) (lands : program.JumpsLand) {fuel : Nat}
    {input : MachineInput} {halt : Halt} {final : MachineState}
    (ends : Ends roomy program.ops input fuel (start input) halt final) :
    (∃ place, Ends roomy candidate.ops input fuel (start input) halt (final.moved place)) ∧
      candidate.observe fuel input = program.observe fuel input := by
  obtain ⟨covers, sound, rewrites⟩ := becomes
  obtain ⟨place, after⟩ := ends_splice lands covers sound rewrites ends
  refine ⟨⟨place, after⟩, ?_⟩
  rw [Program.observe_of_ends after, Program.observe_of_ends ends, Program.observation_moved]

theorem follows (becomes : program.Becomes True candidate) (lands : program.JumpsLand) :
    candidate.Follows program := by
  intro fuel input completes
  obtain ⟨halt, final, ended⟩ := Program.completes_iff.mp completes
  obtain ⟨⟨place, after⟩, same⟩ := becomes.ends lands ended
  exact ⟨Program.completes_iff.mpr ⟨_, _, after⟩, same⟩

theorem observe_eq (becomes : program.Becomes False candidate) (lands : program.JumpsLand)
    {fuel : Nat} {input : MachineInput}
    (proper : (program.observe fuel input).outcome.isProper = true) :
    candidate.observe fuel input = program.observe fuel input := by
  rw [Program.observe_eq, Program.outcome_observation] at proper
  exact (becomes.ends lands (ends_iff.mpr ⟨rfl, proper, False.elim⟩)).2

theorem fits (becomes : program.Becomes roomy candidate)
    (fits : ∀ op ∈ program.ops, op.fits = true) :
    ∀ op ∈ candidate.ops, op.fits = true := by
  obtain ⟨covers, sound, rewrites⟩ := becomes
  rw [Program.ops_splice]
  refine List.forall_mem_map.mpr fun op member => ?_
  rw [Op.fits_mapTarget]
  exact rewrites.fits sound.fits fits op member

end Program.Becomes

end Bytecode

end Covenant
