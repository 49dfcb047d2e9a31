import Covenant.Bytecode.Optimizer
import Covenant.Proofs.Bytecode.Splicing
import Covenant.Proofs.Code.Reach

/-!
The four reductions, each as a rule that says which operations may stand for which, and why that is
sound.
-/

namespace Covenant

namespace Bytecode

theorem Slots.get_put_same (slot : UInt32) (value : UInt64) (slots : Slots) :
    (slots.put slot value).get slot = value := by
  unfold get
  induction slots with
  | nil => simp [put]
  | cons entry rest ih =>
    obtain ⟨first, held⟩ := entry
    unfold put
    by_cases same : first = slot
    · simp [same]
    · by_cases before : slot < first
      · simp [same, before]
      · have other : (slot == first) = false := beq_false_of_ne (Ne.symm same)
        simp only [beq_iff_eq, same, before, if_false, List.lookup_cons, other]
        exact ih

theorem covers_all (ops : List Op) : Covers ops fun _ => True :=
  ⟨trivial, fun _ _ _ => trivial, fun _ _ _ => trivial⟩

section Groups

variable {roomy : Prop} {ops code : List Op} {input : MachineInput} {fuel : Nat}
  {state final : MachineState} {halt : Halt}

theorem found_of_group {group : List Op} {index : Nat} (here : group <+: ops.drop index)
    (offset : Nat) {op : Op} (listed : group[offset]? = some op) :
    ops[index + offset]? = some op := by
  obtain ⟨rest, whole⟩ := here
  obtain ⟨inside, _⟩ := List.getElem?_eq_some_iff.mp listed
  rw [← List.getElem?_drop, ← whole, List.getElem?_append_left inside]
  exact listed

theorem advances_past {move : Nat → Nat} {visited : Nat → Prop} {stop place less count : Nat}
    {next : MachineState} (rest : Ends roomy ops input less next halt final)
    (arrives : next.next = stop) (seen : visited stop) (past : move stop = place)
    (steps : Steps roomy code input count (state.moved (move state.next)) (next.moved place))
    (fewer : less < fuel) (enough : less + count ≤ fuel) :
    Advances roomy ops code input move visited stop fuel state halt final := by
  refine .goes rest (.inl arrives) (arrives ▸ seen) ?_ fewer enough
  rw [arrives, past]
  exact steps

theorem Ends.pushed (ends : Ends roomy ops input fuel state halt final) {value : UInt64}
    {width : Width} (found : ops[state.next]? = some (.push value width)) :
    ∃ less, fuel = less + 1 ∧ state.stack.length < stackLimit ∧
      Ends roomy ops input less { state.past with stack := value :: state.stack } halt final := by
  obtain ⟨less, next, rfl, ran, _, rest⟩ := ends.next found (.inl rfl)
  obtain ⟨room, rfl⟩ := MachineState.push_eq_running.mp ran
  exact ⟨less, rfl, room, rest⟩

theorem steps_push {value : UInt64} {width : Width} {place : Nat}
    (stands : code[place]? = some (.push value width)) (room : state.stack.length < stackLimit) :
    Steps roomy code input 1 (state.moved place)
      { state.moved (place + 1) with stack := value :: state.stack } := by
  have ran : (state.moved place).past.run input (.push value width) =
      .running { state.moved (place + 1) with stack := value :: state.stack } :=
    MachineState.push_eq_running.mpr ⟨room, rfl⟩
  exact .one stands ran (by simp [MachineState.HasRoom, Op.isLoad])

theorem run_of_isPurePush {op : Op} (pure : op.isPurePush = true) (state : MachineState) :
    ∃ value, state.run input op = state.push state.stack value := by
  cases op with
  | push value width => exact ⟨_, rfl⟩
  | arg index => exact ⟨_, rfl⟩
  | caller => exact ⟨_, rfl⟩
  | timestamp => exact ⟨_, rfl⟩
  | callValue => exact ⟨_, rfl⟩
  | _ => exact absurd pure Bool.false_ne_true

theorem not_isTerminal_of_isPurePush {op : Op} (pure : op.isPurePush = true) :
    op.isTerminal = false := by
  cases op <;> first | rfl | exact absurd pure Bool.false_ne_true

end Groups

/-! Dead code. -/

namespace DeadCode

variable {roomy : Prop} {program : Program}

inductive Removes (reachable targets : List Nat) : Nat → List Op → List Op → Prop
  | unreachable {index op} : index ∉ reachable → Removes reachable targets index [op] []
  | marker {index} : index ∉ targets → Removes reachable targets index [.jumpDest] []
  | nextJump {index} : Removes reachable targets index [.jump (index + 1)] []
  | discarded {index op} : op.isPurePush = true → Removes reachable targets index [op, .pop] []

theorem discarded_of_reason {reachable targets : List Nat} {index : Nat} {op : Op}
    {next : Option Op} (given : reason? reachable targets index op next = some .discarded) :
    op.isPurePush = true ∧ next = some .pop := by
  unfold reason? at given
  split at given
  · simp at given
  · split at given
    · simp at given
    · split at given
      · simp at given
      · split at given
        · rename_i both
          simpa using both
        · simp at given

theorem removes_of_reason {reachable targets : List Nat} {index : Nat} {op : Op} {next : Option Op}
    {reason : Reason} (given : reason? reachable targets index op next = some reason)
    (other : reason ≠ .discarded) :
    Removes reachable targets index [op] [] := by
  unfold reason? at given
  split at given
  · rename_i missing
    exact .unreachable (by simpa using missing)
  · split at given
    · rename_i marks
      obtain ⟨rfl, unused⟩ : op = .jumpDest ∧ index ∉ targets := by simpa using marks
      exact .marker unused
    · split at given
      · rename_i near
        obtain rfl : op = .jump (index + 1) := by simpa using near
        exact .nextJump
      · split at given
        · exact absurd (Option.some.inj given).symm other
        · simp at given

theorem rewrites_edits (reachable targets : List Nat) (index : Nat) (ops : List Op) :
    Rewrites (Removes reachable targets) index ops (edits reachable targets index ops).1 := by
  fun_induction edits reachable targets index ops with
  | case1 index => exact .done
  | case2 index op rest none others reasons recursion ih =>
    rw [recursion] at ih
    exact .keep ih
  | case3 index op discarded =>
    obtain ⟨_, none⟩ := discarded_of_reason discarded
    simp at none
  | case4 index op next tail others reasons recursion discarded ih =>
    rw [recursion] at ih
    obtain ⟨pure, same⟩ := discarded_of_reason discarded
    obtain rfl : next = .pop := by simpa using same
    exact Rewrites.group (Removes.discarded pure) ih
  | case5 index op rest reason other given others reasons recursion ih =>
    rw [recursion] at ih
    exact .group (removes_of_reason given other) ih

theorem sound_removes {reachable targets : List Nat}
    (covers : Covers program.ops fun index => index < program.ops.length → index ∈ reachable) :
    Sound roomy program (fun index => index < program.ops.length → index ∈ reachable)
      (Removes reachable targets) where
  fits := by
    intro index group replacement removes _
    cases removes <;> simp
  tail := by
    intro index first others replacement removes
    cases removes <;> simp
  advances := by
    intro index group replacement removes seen here code move _ past input fuel state halt
      final placed ends
    subst placed
    cases removes with
    | @unreachable op missing =>
      have found : program.ops[state.next]? = some op := found_of_group here 0 rfl
      exact absurd (seen (List.getElem?_eq_some_iff.mp found).1) missing
    | marker =>
      have found : program.ops[state.next]? = some .jumpDest := found_of_group here 0 rfl
      obtain ⟨less, next, rfl, ran, _, rest⟩ := ends.next found (.inl rfl)
      obtain rfl := MachineStep.running.inj ran
      exact advances_past rest rfl (covers.next seen found rfl) past .refl (Nat.lt_succ_self _)
        (Nat.le_succ _)
    | nextJump =>
      have found : program.ops[state.next]? = some (.jump (state.next + 1)) :=
        found_of_group here 0 rfl
      obtain ⟨less, next, rfl, ran, _, rest⟩ := ends.next found (.inr rfl)
      obtain rfl := MachineStep.running.inj ran
      exact advances_past rest rfl (covers.target seen found rfl) past .refl (Nat.lt_succ_self _)
        (Nat.le_succ _)
    | @discarded op pure =>
      have found : program.ops[state.next]? = some op := found_of_group here 0 rfl
      have behind : program.ops[state.next + 1]? = some .pop := found_of_group here 1 rfl
      have goesOn := not_isTerminal_of_isPurePush pure
      obtain ⟨less, middle, rfl, ran, _, rest⟩ := ends.next found (.inl goesOn)
      obtain ⟨value, pushes⟩ : ∃ value, state.past.run input op =
        state.past.push state.past.stack value :=
        run_of_isPurePush pure state.past
      rw [pushes] at ran
      obtain ⟨_, rfl⟩ := MachineState.push_eq_running.mp ran
      obtain ⟨fewer, next, rfl, ran, _, rest⟩ := rest.next behind (.inl rfl)
      obtain ⟨top, stack, held, rfl⟩ := MachineState.run_pop_eq_running.mp ran
      obtain ⟨rfl, rfl⟩ := List.cons.inj held
      have seenPop := covers.next seen found goesOn
      exact advances_past rest rfl (covers.next seenPop behind rfl) past .refl (by omega) (by omega)

theorem covers_reachable (program : Program) :
    Covers program.ops fun index => index < program.ops.length → index ∈ program.reachable := by
  have closed : ∀ node ∈ List.range program.ops.length, ∀ other ∈ program.following node,
      other ∈ List.range program.ops.length := by
    intro node _ other listed
    unfold Program.following at listed
    split at listed
    · simp at listed
    · simpa using (List.mem_filter.mp listed).2
  have roots : ∀ root ∈ (if program.ops.isEmpty then [] else [0]),
      root ∈ List.range program.ops.length := by
    intro root member
    split at member
    · simp at member
    · rename_i filled
      rw [List.mem_singleton.mp member, List.mem_range]
      exact List.length_pos_iff.mpr fun empty => filled (by simp [empty])
  have enough : (List.range program.ops.length).length < program.ops.length + 1 := by simp
  have further {index other : Nat} (reached : index ∈ program.reachable)
      (leads : other ∈ program.following index) :
      other ∈ program.reachable :=
    Reach.mem_closure_of_next closed enough roots reached leads (by simp)
  refine ⟨?_, ?_, ?_⟩
  · intro filled
    refine Reach.mem_closure_of_root closed enough roots ?_ (by simp)
    simp [List.ne_nil_of_length_pos filled]
  · intro index op seen found goesOn inside
    have reached := seen (List.getElem?_eq_some_iff.mp found).1
    refine further reached ?_
    simp [Program.following, found, goesOn, inside]
  · intro index op target seen found aims inside
    have reached := seen (List.getElem?_eq_some_iff.mp found).1
    refine further reached ?_
    simp [Program.following, found, aims, inside]

theorem becomes {reduction : Reduction} (reduced : reduce? program = some reduction) :
    program.Becomes roomy reduction.program := by
  unfold reduce? at reduced
  dsimp only at reduced
  split at reduced
  · simp at reduced
  · obtain rfl := Option.some.inj reduced
    have covers := covers_reachable program
    exact .splice covers (sound_removes covers) (rewrites_edits _ _ 0 _)

end DeadCode

/-! Folding. -/

namespace Folding

variable {roomy : Prop} {program : Program}

inductive Folds : List Op → List Op → Prop
  | binary {lhs rhs left right op} : Folds [.push lhs left, .push rhs right, .binary op]
      [.pushNarrow (op.eval lhs rhs)]
  | unary {value width op} : Folds [.push value width, .unary op] [.pushNarrow (op.eval value)]
  | never {width target} : Folds [.push 0 width, .jumpIf target] []
  | always {value width target} : value ≠ 0 → Folds [.push value width, .jumpIf target]
      [.jump target]
  | identity {value width op} : isIdentity value op = true → Folds [.push value width, op] []

def Shortens (_ : Nat) (group replacement : List Op) : Prop :=
  Folds group replacement ∧ size replacement ≤ size group

theorem folds_of_foldPushed {value : UInt64} (width : Width) {rest : List Op} {fold : Fold}
    (found : foldPushed value rest = some fold) :
    ∃ others tail, rest = others ++ tail ∧ fold.consumed = others.length + 1 ∧
      Folds (.push value width :: others) fold.replacement := by
  unfold foldPushed at found
  split at found
  · obtain rfl := Option.some.inj found
    exact ⟨[_, _], _, rfl, rfl, .binary⟩
  · obtain rfl := Option.some.inj found
    exact ⟨[_], _, rfl, rfl, .unary⟩
  · split at found
    · rename_i zero
      obtain rfl : value = 0 := by simpa using zero
      obtain rfl := Option.some.inj found
      exact ⟨[_], _, rfl, rfl, .never⟩
    · rename_i other
      obtain rfl := Option.some.inj found
      exact ⟨[_], _, rfl, rfl, .always (by simpa using other)⟩
  · split at found
    · rename_i same
      obtain rfl := Option.some.inj found
      exact ⟨[_], _, rfl, rfl, .identity same⟩
    · simp at found
  · simp at found

theorem shortens_of_foldAt? {code : List Op} {fold : Fold} (found : foldAt? code = some fold)
    (index : Nat) :
    ∃ first others tail, code = first :: (others ++ tail) ∧ fold.consumed = others.length + 1 ∧
      Shortens index (first :: others) fold.replacement := by
  unfold foldAt? at found
  split at found
  · rename_i value width rest
    obtain ⟨folded, small⟩ := Option.filter_eq_some_iff.mp found
    obtain ⟨others, tail, rfl, count, folds⟩ := folds_of_foldPushed width folded
    refine ⟨_, others, tail, rfl, count, folds, ?_⟩
    have group : (Op.push value width :: (others ++ tail)).take (others.length + 1) =
        .push value width :: others := by
      simp
    rw [count, group] at small
    simpa using small
  · simp at found

theorem edits_skip (others rest : List Op) (index : Nat) :
    (edits others.length index (others ++ rest)).1 =
      others.map (fun _ => some []) ++ (edits 0 (index + others.length) rest).1 := by
  induction others generalizing index with
  | nil => rfl
  | cons op others ih =>
    simp only [List.length_cons, List.cons_append, edits, List.map_cons]
    rw [ih, Nat.add_right_comm, Nat.add_assoc]

theorem rewrites_edits (index : Nat) (ops : List Op) :
    Rewrites Shortens index ops (edits 0 index ops).1 := by
  induction count : ops.length using Nat.strongRecOn generalizing ops index with
  | _ size ih =>
    cases ops with
    | nil => exact .done
    | cons op rest =>
      unfold edits
      cases folded : foldAt? (op :: rest) with
      | none =>
        refine .keep (ih rest.length ?_ (index + 1) rest rfl)
        simp only [List.length_cons] at count
        omega
      | some fold =>
        obtain ⟨first, others, tail, whole, consumed, shortens⟩ := shortens_of_foldAt? folded index
        obtain ⟨rfl, rfl⟩ := List.cons.inj whole
        have behind := ih tail.length (by
          simp only [List.length_cons, List.length_append] at count
          omega) (index + (others.length + 1)) tail rfl
        have edited := edits_skip others tail (index + 1)
        rw [show index + 1 + others.length = index + (others.length + 1) by omega] at edited
        dsimp only
        rw [consumed, Nat.add_sub_cancel, edited]
        exact Rewrites.group shortens behind

theorem eval_of_isIdentity {value : UInt64} {op : Op} (same : isIdentity value op = true) :
    ∃ binary : Binary, op = .binary binary ∧ ∀ left, binary.eval left value = left := by
  unfold isIdentity at same
  split at same
  · exact ⟨.add, rfl, fun left => by rw [eq_of_beq same]; exact UInt64.add_zero left⟩
  · exact ⟨.sub, rfl, fun left => by rw [eq_of_beq same]; exact UInt64.sub_zero left⟩
  · exact ⟨.or, rfl, fun left => by rw [eq_of_beq same]; exact UInt64.or_zero⟩
  · exact ⟨.mul, rfl, fun left => by rw [eq_of_beq same]; exact UInt64.mul_one left⟩
  · exact ⟨.div, rfl, fun left => by rw [eq_of_beq same]; exact UInt64.div_one⟩
  · simp at same

theorem sound_shortens (lands : program.JumpsLand) :
    Sound roomy program (fun _ => True) Shortens where
  fits := by
    rintro index group replacement ⟨folds, _⟩ _
    cases folds with
    | binary => simpa using fits_pushNarrow _
    | unary => simpa using fits_pushNarrow _
    | always => simp [Op.fits]
    | _ => simp
  tail := by
    rintro index first others replacement ⟨folds, _⟩
    cases folds with
    | identity same =>
      obtain ⟨binary, rfl, _⟩ := eval_of_isIdentity same
      simp
    | _ => simp
  advances := by
    rintro index group replacement ⟨folds, _⟩ _ here code move there past input fuel state halt
      final placed ends
    subst placed
    cases folds with
    | binary =>
      have behind := found_of_group here 1 rfl
      have last := found_of_group here 2 rfl
      obtain ⟨less, rfl, room, rest⟩ := ends.pushed (found_of_group here 0 rfl)
      obtain ⟨less, rfl, _, rest⟩ := rest.pushed behind
      obtain ⟨less, next, rfl, ran, _, rest⟩ := rest.next last (.inl rfl)
      obtain ⟨right, left, stack, held, _, rfl⟩ := MachineState.run_binary_eq_running.mp ran
      obtain ⟨rfl, tail⟩ := List.cons.inj held
      obtain ⟨rfl, rfl⟩ := List.cons.inj tail
      exact advances_past rest rfl trivial past (steps_push (found_of_group there 0 rfl) room)
        (by omega) (by omega)
    | unary =>
      have behind := found_of_group here 1 rfl
      obtain ⟨less, rfl, room, rest⟩ := ends.pushed (found_of_group here 0 rfl)
      obtain ⟨less, next, rfl, ran, _, rest⟩ := rest.next behind (.inl rfl)
      obtain ⟨_, rfl⟩ := (MachineState.run_unary_eq_running rfl).mp ran
      exact advances_past rest rfl trivial past (steps_push (found_of_group there 0 rfl) room)
        (by omega) (by omega)
    | never =>
      have behind := found_of_group here 1 rfl
      obtain ⟨less, rfl, _, rest⟩ := ends.pushed (found_of_group here 0 rfl)
      obtain ⟨less, next, rfl, ran, _, rest⟩ := rest.next behind (.inr rfl)
      obtain ⟨condition, stack, held, rfl⟩ := MachineState.run_jumpIf_eq_running.mp ran
      obtain ⟨rfl, rfl⟩ := List.cons.inj held
      simp only [if_true] at rest
      exact advances_past rest rfl trivial past .refl (by omega) (by omega)
    | always other =>
      have behind := found_of_group here 1 rfl
      have leads := lands _ _ _ behind rfl
      obtain ⟨less, rfl, _, rest⟩ := ends.pushed (found_of_group here 0 rfl)
      obtain ⟨less, next, rfl, ran, _, rest⟩ := rest.next behind (.inr rfl)
      obtain ⟨condition, stack, held, rfl⟩ := MachineState.run_jumpIf_eq_running.mp ran
      obtain ⟨rfl, rfl⟩ := List.cons.inj held
      simp only [other, if_false] at rest
      have stands := found_of_group there 0 rfl
      refine .goes rest (.inr leads) trivial (.one stands rfl ?_) (by omega) (by omega)
      simp [MachineState.HasRoom, Op.mapTarget, Op.isLoad]
    | identity same =>
      obtain ⟨binary, rfl, keeps⟩ := eval_of_isIdentity same
      have behind := found_of_group here 1 rfl
      obtain ⟨less, rfl, _, rest⟩ := ends.pushed (found_of_group here 0 rfl)
      obtain ⟨less, next, rfl, ran, _, rest⟩ := rest.next behind (.inl rfl)
      obtain ⟨right, left, stack, held, _, rfl⟩ := MachineState.run_binary_eq_running.mp ran
      obtain ⟨rfl, same⟩ := List.cons.inj held
      rw [keeps, ← same] at rest
      exact advances_past rest rfl trivial past .refl (by omega) (by omega)

theorem becomes {reduction : Reduction} (lands : program.JumpsLand)
    (reduced : reduce? program = some reduction) :
    program.Becomes roomy reduction.program := by
  unfold reduce? at reduced
  dsimp only at reduced
  split at reduced
  · simp at reduced
  · obtain rfl := Option.some.inj reduced
    exact .splice (covers_all _) (sound_shortens lands) (rewrites_edits 0 _)

end Folding

/-! Narrower operands. -/

namespace Packing

variable {roomy : Prop} {program : Program}

inductive Packs : Nat → List Op → List Op → Prop
  | narrow {index op other} : narrow? op = some other → Packs index [op] [other]

theorem narrow?_eq_some {op other : Op} (found : narrow? op = some other) :
    other.fits = true ∧ op.Alike other := by
  unfold narrow? at found
  split at found
  · obtain ⟨small, same⟩ := Option.ite_none_right_eq_some.mp found
    obtain rfl := Option.some.inj same
    exact ⟨small, rfl, rfl, fun _ _ => rfl, rfl⟩
  · obtain ⟨small, same⟩ := Option.ite_none_right_eq_some.mp found
    obtain rfl := Option.some.inj same
    exact ⟨small, rfl, rfl, fun _ _ => rfl, rfl⟩
  · obtain ⟨_, same⟩ := Option.ite_none_right_eq_some.mp found
    obtain rfl := Option.some.inj same
    exact ⟨fits_pushNarrow _, rfl, rfl, fun _ _ => rfl, rfl⟩
  · simp at found

theorem rewrites_edits (index : Nat) (ops : List Op) :
    Rewrites Packs index ops (ops.map fun op => (narrow? op).map fun narrow => [narrow]) := by
  induction ops generalizing index with
  | nil => exact .done
  | cons op rest ih =>
    simp only [List.map_cons]
    cases found : narrow? op with
    | none => exact .keep (ih (index + 1))
    | some other => exact Rewrites.group (Packs.narrow found) (ih (index + 1))

theorem sound_packs : Sound roomy program (fun _ => True) Packs where
  fits := by
    intro index group replacement packs _
    cases packs with
    | narrow found => simpa using (narrow?_eq_some found).1
  tail := by
    intro index first others replacement packs
    cases packs
    simp
  advances := by
    intro index group replacement packs _ here code move there past input fuel state halt
      final placed ends
    subst placed
    cases packs with
    | @narrow op other found =>
      have alike := (narrow?_eq_some found).2
      have stands : code[move state.next]? = some (other.mapTarget move) :=
        found_of_group there 0 rfl
      rw [Op.mapTarget_of_still alike.otherStill] at stands
      exact advances_alike (covers_all _) alike (found_of_group here 0 rfl) stands past trivial ends

theorem becomes {reduction : Reduction} (reduced : reduce? program = some reduction) :
    program.Becomes roomy reduction.program := by
  unfold reduce? at reduced
  dsimp only at reduced
  split at reduced
  · simp at reduced
  · obtain rfl := Option.some.inj reduced
    exact .splice (covers_all _) sound_packs (rewrites_edits 0 _)

end Packing

/-! Loads of values that are at hand. -/

namespace RepeatedLoads

variable {program : Program}

inductive Reuses : Nat → List Op → List Op → Prop
  | forwarded {index slot wide other} : Reuses index [.store slot wide, .load slot other]
      [.dup, .store slot wide]
  | repeated {index slot wide other} : Reuses index [.load slot wide, .load slot other]
      [.load slot wide, .dup]

theorem reuses_of_reuse? {first second : Op} {replacement : List Op} {note : String}
    (found : reuse? first second = some (replacement, note)) (index : Nat) :
    Reuses index [first, second] replacement := by
  unfold reuse? at found
  split at found
  · split at found
    · rename_i same
      obtain rfl := eq_of_beq same
      obtain ⟨rfl, _⟩ := Prod.mk.inj (Option.some.inj found)
      exact .forwarded
    · simp at found
  · split at found
    · rename_i same
      obtain rfl := eq_of_beq same
      obtain ⟨rfl, _⟩ := Prod.mk.inj (Option.some.inj found)
      exact .repeated
    · simp at found
  · simp at found

theorem rewrites_edits (index : Nat) (ops : List Op) : Rewrites Reuses index ops (edits ops).1 := by
  fun_induction edits ops generalizing index with
  | case1 first second rest replacement note found others notes recursion ih =>
    have behind := ih (index + 2)
    rw [recursion] at behind
    exact Rewrites.group (reuses_of_reuse? found index) behind
  | case2 first second rest none others notes recursion ih =>
    have behind := ih (index + 1)
    rw [recursion] at behind
    exact .keep behind
  | case3 => exact .done

section Runs

variable {code : List Op} {move : Nat → Nat} {input : MachineInput} {fuel : Nat}
  {state final : MachineState} {halt : Halt} {slot : UInt32} {wide other : Bool}

theorem hasRoom_of_still {op : Op} (still : op.isLoad = false) (next : MachineState) (_ : True) :
    next.HasRoom op := by
  simp [MachineState.HasRoom, still]

/-- Forwarding a stored value needs room for one more value while it is stored again; the load that
it saves has left that room. -/
theorem advances_forwarded
    (here : [.store slot wide, .load slot other] <+: program.ops.drop state.next)
    (there : [.dup, .store slot wide] <+: code.drop (move state.next))
    (past : move (state.next + 2) = move state.next + 2)
    (ends : Ends True program.ops input fuel state halt final) :
    Advances True program.ops code input move (fun _ => True) (state.next + 2) fuel state halt
      final := by
  obtain ⟨less, middle, rfl, ran, _, rest⟩ := ends.next (found_of_group here 0 rfl) (.inl rfl)
  obtain ⟨value, stack, held, rfl⟩ := MachineState.run_store_eq_running.mp ran
  obtain ⟨less, next, rfl, ran, room, rest⟩ := rest.next (found_of_group here 1 rfl) (.inl rfl)
  obtain ⟨_, loaded⟩ := MachineState.push_eq_running.mp ran
  have final : next = { state.moved (state.next + 2) with
      stack := value :: stack, storage := state.storage.put slot value } := by
    have same := Slots.get_put_same slot value state.storage
    rw [loaded]
    exact congrArg (fun top => { state.moved (state.next + 2) with
      stack := top :: stack, storage := state.storage.put slot value }) same
  subst final
  have holds : state.stack = value :: stack := held
  have duplicates : (state.moved (move state.next)).past.run input .dup =
      .running { state.moved (move state.next + 1) with stack := value :: value :: stack } := by
    simp only [MachineState.run, MachineState.past_moved, MachineState.stack_moved, holds]
    exact MachineState.push_eq_running.mpr ⟨room trivial rfl, rfl⟩
  have steps : Steps True code input 2 (state.moved (move state.next))
      { state.moved (move state.next + 2) with
        stack := value :: stack, storage := state.storage.put slot value } :=
    .step (found_of_group there 0 rfl) duplicates (hasRoom_of_still rfl _)
      (.one (found_of_group there 1 rfl)
        (MachineState.run_store_eq_running.mpr ⟨value, value :: stack, rfl, rfl⟩)
        (hasRoom_of_still rfl _))
  exact advances_past rest rfl trivial past steps (by omega) (by omega)

theorem advances_repeated
    (here : [.load slot wide, .load slot other] <+: program.ops.drop state.next)
    (there : [.load slot wide, .dup] <+: code.drop (move state.next))
    (past : move (state.next + 2) = move state.next + 2)
    (ends : Ends True program.ops input fuel state halt final) :
    Advances True program.ops code input move (fun _ => True) (state.next + 2) fuel state halt
      final := by
  obtain ⟨less, middle, rfl, ran, room, rest⟩ := ends.next (found_of_group here 0 rfl) (.inl rfl)
  obtain ⟨space, rfl⟩ := MachineState.push_eq_running.mp ran
  obtain ⟨less, next, rfl, ran, _, rest⟩ := rest.next (found_of_group here 1 rfl) (.inl rfl)
  obtain ⟨more, rfl⟩ := MachineState.push_eq_running.mp ran
  let value := state.storage.get slot
  have pushes : (state.moved (move state.next)).past.run input (.load slot wide) =
      .running { state.moved (move state.next + 1) with stack := value :: state.stack } :=
    MachineState.push_eq_running.mpr ⟨space, rfl⟩
  have duplicates : MachineState.run input
      ({ state.moved (move state.next + 1) with stack := value :: state.stack } :
        MachineState).past .dup =
      .running
        { state.moved (move state.next + 2) with stack := value :: value :: state.stack } :=
    MachineState.push_eq_running.mpr ⟨more, rfl⟩
  have steps : Steps True code input 2 (state.moved (move state.next))
      { state.moved (move state.next + 2) with stack := value :: value :: state.stack } :=
    .step (found_of_group there 0 rfl) pushes room
      (.one (found_of_group there 1 rfl) duplicates (hasRoom_of_still rfl _))
  exact advances_past rest rfl trivial past steps (by omega) (by omega)

end Runs

theorem sound_reuses : Sound True program (fun _ => True) Reuses where
  fits := by
    intro index group replacement reuses fits
    cases reuses <;> simp_all [Op.fits]
  tail := by
    intro index first others replacement reuses
    cases reuses <;> simp
  advances := by
    intro index group replacement reuses _ here code move there past input fuel state halt
      final placed ends
    subst placed
    cases reuses with
    | forwarded => exact advances_forwarded here there past ends
    | repeated => exact advances_repeated here there past ends

theorem becomes {reduction : Reduction} (reduced : reduce? program = some reduction) :
    program.Becomes True reduction.program := by
  unfold reduce? at reduced
  dsimp only at reduced
  split at reduced
  · simp at reduced
  · obtain rfl := Option.some.inj reduced
    exact .splice (covers_all _) sound_reuses (rewrites_edits 0 _)

end RepeatedLoads

theorem Transformation.becomes {program : Program} {transformation : Transformation}
    {reduction : Reduction} (lands : program.JumpsLand)
    (reduced : transformation.reduce? program = some reduction) :
    program.Becomes True reduction.program := by
  cases transformation with
  | deadCode => exact DeadCode.becomes reduced
  | folding => exact Folding.becomes lands reduced
  | packing => exact Packing.becomes reduced
  | repeatedLoads => exact RepeatedLoads.becomes reduced

end Bytecode

/-!
What removing dead code keeps. Runs that end properly are observed to do the same, with the same
fuel, however full the stack gets; and what a run executes, whether or not it ends properly, is
never taken for unreachable.
-/

namespace Bytecode

/-- The places of the operations that a run of at most the given number of steps executes, one for
each step. -/
def MachineState.executed (code : Array Op) (input : MachineInput) : Nat → MachineState → List Nat
  | 0, _ => []
  | fuel + 1, state =>
    match code[state.next]? with
    | none => []
    | some op =>
      state.next ::
        match run input state.past op with
        | .halted _ _ => []
        | .running next => executed code input fuel next

def Program.executed (program : Program) (fuel : Nat) (input : MachineInput) : List Nat :=
  MachineState.executed program.ops.toArray input fuel (start input)

section Covers

variable {ops : List Op} {visited : Nat → Prop} {input : MachineInput} {state : MachineState}

theorem Covers.executed (covers : Covers ops visited) (fuel : Nat) (seen : visited state.next) :
    ∀ index ∈ MachineState.executed ops.toArray input fuel state, index < ops.length ∧
      visited index := by
  induction fuel generalizing state with
  | zero => exact nofun
  | succ fuel ih =>
    intro index member
    unfold MachineState.executed at member
    rw [List.getElem?_toArray] at member
    split at member
    · exact absurd member List.not_mem_nil
    · rename_i op found
      rcases List.mem_cons.mp member with rfl | later
      · exact ⟨(List.getElem?_eq_some_iff.mp found).1, seen⟩
      · split at later
        · exact absurd later List.not_mem_nil
        · rename_i next ran
          exact ih (covers.step found ran seen) index later

end Covers

namespace DeadCode

/-- Where all jumps lead to jump destinations, removing dead code changes nothing that can be
observed of a run that ends properly, and every operation that some run executes can be reached. -/
theorem observe_reduce {program : Program} (lands : program.JumpsLand) (fuel : Nat)
    (input : MachineInput) :
    (∀ reduction, reduce? program = some reduction →
      (program.observe fuel input).outcome.isProper = true →
      reduction.program.observe fuel input = program.observe fuel input) ∧
    ∀ index ∈ program.executed fuel input, index ∈ program.reachable := by
  constructor
  · intro reduction reduced proper
    have becomes : program.Becomes False reduction.program := becomes reduced
    exact becomes.observe_eq lands proper
  · intro index member
    have covers := covers_reachable program
    obtain ⟨inside, seen⟩ := covers.executed fuel covers.first index member
    exact seen inside

/-- A jump over code that never runs, to a place that is needed no more, and a value that is pushed
to be dropped. -/
theorem observe_reduce_of_skipped_code :
    let program : Program :=
      ⟨[.arg 0, .pop, .jump 4, .ret, .jumpDest, .arg 1, .jumpIf 8, .jump 8, .jumpDest, .jumpDest,
        .caller, .store 0 false, .push 7 .one, .ret]⟩
    let input : MachineInput := { MachineInput.zero with args := [2, 1], caller := 5 }
    program.JumpsLand ∧ ∃ reduction, reduce? program = some reduction ∧
      reduction.program.ops.length = 9 ∧
      (program.observe 12 input).outcome = .returned ∧
      reduction.program.observe 12 input = program.observe 12 input ∧
      ∀ index ∈ program.executed 12 input, index ∈ program.reachable := by
  intro program input
  have lands : program.JumpsLand := Program.strayJump?_eq_none.mp (by decide)
  obtain ⟨same, reached⟩ := observe_reduce lands 12 input
  have reduced : (reduce? program).isSome = true := by decide +kernel
  obtain ⟨reduction, found⟩ := Option.isSome_iff_exists.mp reduced
  have short : (reduce? program).map (fun reduction => reduction.program.ops.length) = some 9 := by
    decide +kernel
  have outcome : (program.observe 12 input).outcome = .returned := by decide +kernel
  rw [found] at short
  exact ⟨lands, reduction, found, Option.some.inj short, outcome,
    same reduction found (by rw [outcome]; rfl), reached⟩

end DeadCode

end Bytecode

end Covenant
