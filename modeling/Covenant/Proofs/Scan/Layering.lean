import Covenant.Proofs.Scan.Isolation
import Mathlib.Data.Fintype.Card
import Mathlib.Data.Set.Finite.List
import Mathlib.Order.WellFounded

/-!
The waves that passes are put into. There are some exactly if no two passes have the same key, every
pass that another one depends on is given, and no pass depends on itself through others; each pass
is then in the first wave that it can be in.
-/

namespace Covenant

namespace Pass

variable {σ κ φ : Type}

def Sits (layers : List (List (Pass σ κ φ))) (index : Nat) (key : κ) : Prop :=
  ∃ wave, layers[index]? = some wave ∧ key ∈ wave.map Pass.key

/-- Whether a wave is the earliest one for a pass: the first of all if the pass depends on nothing,
otherwise the one right behind the latest wave that holds a pass on which it depends. -/
inductive Earliest (layers : List (List (Pass σ κ φ))) (pass : Pass σ κ φ) : Nat → Prop
  | first : pass.depends = [] → Earliest layers pass 0
  | behind {latest key} : key ∈ pass.depends → Sits layers latest key →
      (∀ other ∈ pass.depends, ∃ earlier ≤ latest, Sits layers earlier other) →
      Earliest layers pass (latest + 1)

/-- Whether waves hold all passes, each one once and in its earliest wave, those of a wave in the
order in which they were given. -/
structure Canonical (passes : List (Pass σ κ φ)) (layers : List (List (Pass σ κ φ))) : Prop where
  partition : layers.flatten.Perm passes
  filled : [] ∉ layers
  ordered : ∀ wave ∈ layers, wave.Sublist passes
  earliest : ∀ index wave, layers[index]? = some wave → ∀ pass ∈ wave, Earliest layers pass index

theorem Sits.later {layers : List (List (Pass σ κ φ))} {index : Nat} {key : κ}
    (sits : Sits layers index key) (wave : List (Pass σ κ φ)) :
    Sits (wave :: layers) (index + 1) key := sits

theorem Sits.mem {layers : List (List (Pass σ κ φ))} {index : Nat} {key : κ}
    (sits : Sits layers index key) :
    key ∈ layers.flatten.map Pass.key := by
  obtain ⟨wave, found, listed⟩ := sits
  obtain ⟨pass, member, rfl⟩ := List.mem_map.mp listed
  exact List.mem_map_of_mem (List.mem_flatten_of_mem (List.mem_of_getElem? found) member)

theorem exists_sits {layers : List (List (Pass σ κ φ))} {pass : Pass σ κ φ}
    (member : pass ∈ layers.flatten) :
    ∃ (index : Nat) (wave : List (Pass σ κ φ)), layers[index]? = some wave ∧ pass ∈ wave := by
  obtain ⟨wave, listed, inside⟩ := List.mem_flatten.mp member
  obtain ⟨index, found⟩ := List.getElem?_of_mem listed
  exact ⟨index, wave, found, inside⟩

theorem Sits.unique {layers : List (List (Pass σ κ φ))} (distinct : (layers.flatten.map key).Nodup)
    {first second : Nat} {key : κ} (here : Sits layers first key) (there : Sits layers second key) :
    first = second := by
  induction layers generalizing first second with
  | nil =>
    obtain ⟨wave, found, _⟩ := here
    simp at found
  | cons wave rest ih =>
    rw [List.flatten_cons, List.map_append] at distinct
    obtain ⟨_, behind, apart⟩ := List.nodup_append'.mp distinct
    have inFirst (sits : Sits (wave :: rest) 0 key) : key ∈ wave.map Pass.key := by
      obtain ⟨same, found, listed⟩ := sits
      obtain rfl := Option.some.inj found
      exact listed
    have inRest {index : Nat} (sits : Sits (wave :: rest) (index + 1) key) :
        Sits rest index key := sits
    cases first with
    | zero =>
      cases second with
      | zero => rfl
      | succ second => exact absurd (inRest there).mem (apart (inFirst here))
    | succ first =>
      cases second with
      | zero => exact absurd (inRest here).mem (apart (inFirst there))
      | succ second => rw [ih behind (inRest here) (inRest there)]

namespace Canonical

variable {passes : List (Pass σ κ φ)} {layers others : List (List (Pass σ κ φ))}

theorem nodup (canonical : Canonical passes layers) (distinct : (passes.map key).Nodup) :
    (layers.flatten.map key).Nodup := (canonical.partition.map key).nodup_iff.mpr distinct

/-- The wave of a pass is settled by the waves of those that it depends on. -/
theorem sits_of_sits (one : Canonical passes layers) (two : Canonical passes others)
    (distinct : (passes.map key).Nodup) {index : Nat} {key : κ} (sits : Sits layers index key) :
    Sits others index key := by
  induction index using Nat.strongRecOn generalizing key with
  | _ index ih =>
    obtain ⟨wave, found, listed⟩ := sits
    obtain ⟨pass, inside, rfl⟩ := List.mem_map.mp listed
    have member : pass ∈ others.flatten :=
      (one.partition.trans two.partition.symm).mem_iff.mp
        (List.mem_flatten_of_mem (List.mem_of_getElem? found) inside)
    obtain ⟨place, other, there, held⟩ := exists_sits member
    have same : place = index := by
      cases one.earliest index wave found pass inside with
      | first free =>
        cases two.earliest place other there pass held with
        | first => rfl
        | behind needed => simp [free] at needed
      | @behind latest last needed sits below =>
        have moved {earlier : Nat} {key : κ} (before : earlier ≤ latest)
            (sits : Sits layers earlier key) :
            Sits others earlier key := ih earlier (Nat.lt_succ_of_le before) sits
        cases two.earliest place other there pass held with
        | first free => simp [free] at needed
        | @behind latest' last' needed' sits' below' =>
          obtain ⟨earlier, before, atEarlier⟩ := below last' needed'
          obtain ⟨earlier', before', atEarlier'⟩ := below' last needed
          have unique := Sits.unique (two.nodup distinct) sits' (moved before atEarlier)
          have unique' :=
            Sits.unique (two.nodup distinct) (moved (Nat.le_refl latest) sits) atEarlier'
          omega
    exact ⟨other, same ▸ there, List.mem_map_of_mem held⟩

theorem mem_of_mem (one : Canonical passes layers) (two : Canonical passes others)
    (distinct : (passes.map key).Nodup) {index : Nat} {wave other : List (Pass σ κ φ)}
    (found : layers[index]? = some wave) (there : others[index]? = some other) {pass : Pass σ κ φ}
    (member : pass ∈ wave) : pass ∈ other := by
  obtain ⟨same, found', listed⟩ :=
    one.sits_of_sits two distinct ⟨wave, found, List.mem_map_of_mem member⟩
  obtain rfl := Option.some.inj (there.symm.trans found')
  obtain ⟨twin, held, named⟩ := List.mem_map.mp listed
  have given := (one.ordered wave (List.mem_of_getElem? found)).subset member
  have givenTwin := (two.ordered other (List.mem_of_getElem? there)).subset held
  rwa [← List.inj_on_of_nodup_map distinct givenTwin given named]

theorem exists_wave (one : Canonical passes layers) (two : Canonical passes others)
    (distinct : (passes.map key).Nodup) {index : Nat} {wave : List (Pass σ κ φ)}
    (found : layers[index]? = some wave) :
    ∃ other, others[index]? = some other := by
  have filled : wave ≠ [] := by
    intro empty
    exact one.filled (empty ▸ List.mem_of_getElem? found)
  obtain ⟨pass, member⟩ := List.exists_mem_of_ne_nil wave filled
  obtain ⟨other, there, _⟩ :=
    one.sits_of_sits two distinct ⟨wave, found, List.mem_map_of_mem member⟩
  exact ⟨other, there⟩

/-- There is only one way to put passes into canonical waves. -/
theorem unique (one : Canonical passes layers) (two : Canonical passes others)
    (distinct : (passes.map key).Nodup) :
    layers = others := by
  apply List.ext_getElem?
  intro index
  cases found : layers[index]? with
  | none =>
    cases there : others[index]? with
    | none => rfl
    | some other =>
      obtain ⟨wave, found'⟩ := two.exists_wave one distinct there
      simp [found] at found'
  | some wave =>
    obtain ⟨other, there⟩ := one.exists_wave two distinct found
    have once := distinct.of_map
    have part := one.ordered wave (List.mem_of_getElem? found)
    have otherPart := two.ordered other (List.mem_of_getElem? there)
    have same : wave.Perm other := by
      rw [List.perm_ext_iff_of_nodup (once.sublist part) (once.sublist otherPart)]
      intro pass
      exact ⟨one.mem_of_mem two distinct found there, two.mem_of_mem one distinct there found⟩
    rw [there, (once.perm_iff_eq_of_sublist part otherPart).mp same]

end Canonical

variable [BEq κ]

inductive Stacked : List κ → List (Pass σ κ φ) → List (List (Pass σ κ φ)) → Prop
  | done (placed : List κ) : Stacked placed [] []
  | wave {placed passes rest} : passes.filter (isReady placed) ≠ [] →
      Stacked (placed ++ (passes.filter (isReady placed)).map key)
        (passes.filter (not ∘ isReady placed)) rest →
      Stacked placed passes (passes.filter (isReady placed) :: rest)

/-! Making waves one after the other. -/

theorem layer_nil (fuel : Nat) (placed : List κ) :
    layer fuel placed ([] : List (Pass σ κ φ)) = .ok [] := by
  cases fuel with
  | zero => rfl
  | succ fuel => rfl

theorem layer_succ (fuel : Nat) (placed : List κ) {passes : List (Pass σ κ φ)}
    (filled : passes ≠ []) :
    layer (fuel + 1) placed passes =
      if (passes.filter (isReady placed)).isEmpty then
        .error (.circular ((passes.filter (not ∘ isReady placed)).map name))
      else
        (layer fuel (placed ++ (passes.filter (isReady placed)).map key)
          (passes.filter (not ∘ isReady placed))).map (passes.filter (isReady placed) :: ·) := by
  cases passes with
  | nil => exact absurd rfl filled
  | cons pass rest =>
    simp only [layer, List.partition_eq_filter_filter]
    split
    · rfl
    · cases layer fuel (placed ++ ((pass :: rest).filter (isReady placed)).map key)
        ((pass :: rest).filter (not ∘ isReady placed)) with
      | error problem => rfl
      | ok others => rfl

theorem length_blocked (placed : List κ) (passes : List (Pass σ κ φ)) :
    (passes.filter (isReady placed)).length + (passes.filter (not ∘ isReady placed)).length =
      passes.length := by
  have whole := (List.filter_append_perm (isReady placed) passes).length_eq
  rwa [List.length_append] at whole

theorem blocked_lt {placed : List κ} {passes : List (Pass σ κ φ)}
    (filled : passes.filter (isReady placed) ≠ []) :
    (passes.filter (not ∘ isReady placed)).length < passes.length := by
  have whole := length_blocked placed passes
  have counted := List.length_pos_iff.mpr filled
  omega

theorem layer_of_length_le {fuel : Nat} {placed : List κ} {passes : List (Pass σ κ φ)}
    (enough : passes.length ≤ fuel) :
    layer fuel placed passes = layer passes.length placed passes := by
  induction fuel using Nat.strongRecOn generalizing placed passes with
  | _ fuel ih =>
    by_cases empty : passes = []
    · rw [empty, layer_nil, layer_nil]
    · obtain ⟨rounds, counted⟩ : ∃ rounds, passes.length = rounds + 1 :=
        Nat.exists_eq_succ_of_ne_zero fun none => empty (List.length_eq_zero_iff.mp none)
      obtain ⟨more, rfl⟩ : ∃ more, fuel = more + 1 := ⟨fuel - 1, by omega⟩
      rw [counted, layer_succ more placed empty, layer_succ rounds placed empty]
      by_cases stuck : passes.filter (isReady placed) = []
      · simp [stuck]
      · have fewer := blocked_lt stuck
        rw [ih more (by omega) (by omega), ih rounds (by omega) (by omega)]

theorem stacked_of_layer {fuel : Nat} {placed : List κ} {passes : List (Pass σ κ φ)}
    {layers : List (List (Pass σ κ φ))} (layered : layer fuel placed passes = .ok layers) :
    Stacked placed passes layers := by
  induction fuel generalizing placed passes layers with
  | zero =>
    cases passes with
    | nil =>
      obtain rfl := Except.ok.inj layered
      exact .done placed
    | cons pass rest => simp [layer] at layered
  | succ fuel ih =>
    by_cases empty : passes = []
    · subst empty
      obtain rfl := Except.ok.inj layered
      exact .done placed
    · rw [layer_succ fuel placed empty] at layered
      split at layered
      · simp at layered
      · rename_i filled
        cases behind : layer fuel (placed ++ (passes.filter (isReady placed)).map key)
            (passes.filter (not ∘ isReady placed)) with
        | error problem => simp [behind, Except.map] at layered
        | ok others =>
          rw [behind] at layered
          obtain rfl := Except.ok.inj layered
          apply Stacked.wave
          · simpa using filled
          · exact ih behind

theorem Stacked.layer_eq {placed : List κ} {passes : List (Pass σ κ φ)}
    {layers : List (List (Pass σ κ φ))} (stacked : Stacked placed passes layers) :
    layer passes.length placed passes = .ok layers := by
  induction stacked with
  | done placed => rfl
  | @wave placed passes rest filled later ih =>
    have fewer := blocked_lt filled
    obtain ⟨rounds, counted⟩ : ∃ rounds, passes.length = rounds + 1 := ⟨passes.length - 1, by omega⟩
    have given : passes ≠ [] := by
      intro empty
      simp [empty] at filled
    rw [counted, layer_succ rounds placed given, layer_of_length_le (by omega), ih]
    simp [filled, Except.map]

/-! What such waves are like. -/

namespace Stacked

variable {placed : List κ} {passes : List (Pass σ κ φ)} {layers : List (List (Pass σ κ φ))}

theorem perm (stacked : Stacked placed passes layers) : layers.flatten.Perm passes := by
  induction stacked with
  | done placed => exact .refl _
  | @wave placed passes rest filled later ih =>
    rw [List.flatten_cons]
    exact (ih.append_left _).trans (List.filter_append_perm _ _)

theorem filled (stacked : Stacked placed passes layers) : [] ∉ layers := by
  induction stacked with
  | done placed => simp
  | wave filled later ih =>
    rw [List.mem_cons, not_or]
    exact ⟨filled.symm, ih⟩

theorem sublist (stacked : Stacked placed passes layers) :
    ∀ wave ∈ layers, wave.Sublist passes := by
  induction stacked with
  | done placed => simp
  | wave filled later ih =>
    intro wave member
    rcases List.mem_cons.mp member with rfl | behind
    · exact List.filter_sublist
    · exact (ih wave behind).trans List.filter_sublist

variable [LawfulBEq κ]

theorem isReady_iff {pass : Pass σ κ φ} :
    isReady placed pass = true ↔ ∀ key ∈ pass.depends, key ∈ placed := by
  simp [isReady]

theorem placed_or_sits (stacked : Stacked placed passes layers) {index : Nat}
    {wave : List (Pass σ κ φ)} (found : layers[index]? = some wave) {pass : Pass σ κ φ}
    (member : pass ∈ wave) {key : κ} (needed : key ∈ pass.depends) :
    key ∈ placed ∨ ∃ earlier < index, Sits layers earlier key := by
  induction stacked generalizing index with
  | done placed => simp at found
  | @wave placed passes rest filled later ih =>
    cases index with
    | zero =>
      obtain rfl := Option.some.inj found
      have ready := (List.mem_filter.mp member).2
      exact .inl (isReady_iff.mp ready key needed)
    | succ index =>
      rcases ih found with listed | ⟨earlier, before, sits⟩
      · rcases List.mem_append.mp listed with old | new
        · exact .inl old
        · right
          exact ⟨0, Nat.succ_pos index, _, rfl, new⟩
      · right
        exact ⟨earlier + 1, Nat.succ_lt_succ before, sits.later _⟩

/-- A pass that is not in the first wave was not ready for the wave before its own. -/
theorem sits_before (stacked : Stacked placed passes layers) {index : Nat}
    {wave : List (Pass σ κ φ)} (found : layers[index + 1]? = some wave) {pass : Pass σ κ φ}
    (member : pass ∈ wave) :
    ∃ key ∈ pass.depends, Sits layers index key := by
  induction stacked generalizing index with
  | done placed => simp at found
  | @wave placed passes rest filled later ih =>
    cases index with
    | zero =>
      have listed : pass ∈ rest.flatten :=
        List.mem_flatten_of_mem (List.mem_of_getElem? found) member
      have blocked := (List.mem_filter.mp (later.perm.mem_iff.mp listed)).2
      have unready : ¬ ∀ key ∈ pass.depends, key ∈ placed := by
        rw [← isReady_iff]
        simpa using blocked
      push Not at unready
      obtain ⟨key, needed, unplaced⟩ := unready
      refine ⟨key, needed, ?_⟩
      rcases later.placed_or_sits found member needed with listed | ⟨_, before, _⟩
      · exact ⟨_, rfl, (List.mem_append.mp listed).resolve_left unplaced⟩
      · exact absurd before (Nat.not_lt_zero _)
    | succ index =>
      obtain ⟨key, needed, sits⟩ := ih found
      exact ⟨key, needed, sits.later _⟩

theorem canonical (stacked : Stacked [] passes layers) : Canonical passes layers where
  partition := stacked.perm
  filled := stacked.filled
  ordered := stacked.sublist
  earliest := by
    intro index wave found pass member
    have earlier (key : κ) (needed : key ∈ pass.depends) : ∃ earlier < index,
        Sits layers earlier key :=
      (stacked.placed_or_sits found member needed).resolve_left List.not_mem_nil
    cases index with
    | zero =>
      apply Earliest.first
      rw [List.eq_nil_iff_forall_not_mem]
      intro key needed
      obtain ⟨_, before, _⟩ := earlier key needed
      exact Nat.not_lt_zero _ before
    | succ latest =>
      obtain ⟨key, needed, sits⟩ := stacked.sits_before found member
      apply Earliest.behind needed sits
      intro other depended
      obtain ⟨wave, before, there⟩ := earlier other depended
      exact ⟨wave, Nat.le_of_lt_succ before, there⟩

end Stacked

/-! When there are waves. -/

section

variable [LawfulBEq κ] {passes : List (Pass σ κ φ)}

theorem missing?_eq_none {provided : List κ} {pass : Pass σ κ φ} :
    pass.missing? provided = none ↔ ∀ key ∈ pass.depends, key ∈ provided := by
  simp [missing?]

theorem waves_eq_ok {layers : List (List (Pass σ κ φ))} :
    waves passes = .ok layers ↔ (passes.map key).Nodup ∧
      (∀ pass ∈ passes, ∀ key ∈ pass.depends, key ∈ passes.map Pass.key) ∧
      Stacked [] passes layers := by
  have provided :
    (passes.findSome? fun pass => (pass.missing? (passes.map key)).map (pass.name, ·)) = none ↔
      ∀ pass ∈ passes, ∀ key ∈ pass.depends, key ∈ passes.map Pass.key := by
    simp only [List.findSome?_eq_none_iff, Option.map_eq_none_iff, missing?_eq_none]
  have distinct : repeated? [] passes = none ↔ (passes.map key).Nodup := by
    rw [repeated?_eq_none]
    simp
  have layered : layer passes.length [] passes = .ok layers ↔ Stacked [] passes layers :=
    ⟨stacked_of_layer, Stacked.layer_eq⟩
  rw [← provided, ← distinct, ← layered]
  unfold waves
  cases repeated? [] passes with
  | some pass => simp
  | none =>
    cases passes.findSome? fun pass => (pass.missing? (passes.map key)).map (pass.name, ·) with
    | some problem => simp
    | none => simp

theorem exists_ready (acyclic : ∀ pass, ¬ Relation.TransGen (Needs passes) pass pass)
    {placed : List κ} {remaining : List (Pass σ κ φ)} (inside : ∀ pass ∈ remaining, pass ∈ passes)
    (provided : ∀ pass ∈ remaining, ∀ key ∈ pass.depends, key ∈ placed ∨
      key ∈ remaining.map Pass.key)
    (filled : remaining ≠ []) : remaining.filter (isReady placed) ≠ [] := by
  let Below (other pass : { pass // pass ∈ remaining }) : Prop :=
    Relation.TransGen (Needs passes) pass.1 other.1
  have finite : Finite { pass // pass ∈ remaining } := List.finite_toSet remaining
  have transitive : IsTrans _ Below := ⟨fun _ _ _ first second => second.trans first⟩
  have irreflexive : Std.Irrefl Below := ⟨fun pass cycle => acyclic pass.1 cycle⟩
  have founded : WellFounded Below := Finite.wellFounded_of_trans_of_irrefl Below
  obtain ⟨first, listed⟩ := List.exists_mem_of_ne_nil remaining filled
  -- a pass that depends on none of those that remain
  obtain ⟨⟨least, member⟩, _, minimal⟩ := founded.has_min Set.univ ⟨⟨first, listed⟩, trivial⟩
  have ready : isReady placed least = true := by
    rw [Stacked.isReady_iff]
    intro key needed
    rcases provided least member key needed with done | waiting
    · exact done
    · obtain ⟨other, among, rfl⟩ := List.mem_map.mp waiting
      exact absurd (.single ⟨inside other among, needed⟩) (minimal ⟨other, among⟩ trivial)
  exact List.ne_nil_of_mem (List.mem_filter.mpr ⟨member, ready⟩)

theorem exists_stacked (acyclic : ∀ pass, ¬ Relation.TransGen (Needs passes) pass pass)
    {placed : List κ} {remaining : List (Pass σ κ φ)} (inside : ∀ pass ∈ remaining, pass ∈ passes)
    (provided : ∀ pass ∈ remaining, ∀ key ∈ pass.depends, key ∈ placed ∨
      key ∈ remaining.map Pass.key) :
    ∃ layers, Stacked placed remaining layers := by
  induction count : remaining.length using Nat.strongRecOn generalizing placed remaining with
  | _ count ih =>
    by_cases empty : remaining = []
    · subst empty
      exact ⟨[], .done placed⟩
    · have filled := exists_ready acyclic inside provided empty
      have fewer := blocked_lt filled
      have insideBehind : ∀ pass ∈ remaining.filter (not ∘ isReady placed), pass ∈ passes := by
        intro pass member
        exact inside pass (List.mem_filter.mp member).1
      have providedBehind : ∀ pass ∈ remaining.filter (not ∘ isReady placed), ∀ key ∈ pass.depends,
          key ∈ placed ++ (remaining.filter (isReady placed)).map Pass.key ∨
            key ∈ (remaining.filter (not ∘ isReady placed)).map Pass.key := by
        intro pass member key needed
        rcases provided pass (List.mem_filter.mp member).1 key needed with done | waiting
        · left
          exact List.mem_append_left _ done
        · obtain ⟨other, among, rfl⟩ := List.mem_map.mp waiting
          by_cases ready : isReady placed other = true
          · left
            exact List.mem_append_right _ (List.mem_map_of_mem (List.mem_filter.mpr ⟨among, ready⟩))
          · right
            exact List.mem_map_of_mem (List.mem_filter.mpr ⟨among, by simpa using ready⟩)
      obtain ⟨rest, later⟩ := ih _ (by omega) insideBehind providedBehind rfl
      exact ⟨_, .wave filled later⟩

/-- Where there are waves, no pass depends on itself through others. -/
theorem acyclic_of_waves {layers : List (List (Pass σ κ φ))} (accepted : waves passes = .ok layers)
    (pass : Pass σ κ φ) : ¬ Relation.TransGen (Needs passes) pass pass := by
  have distinct := (waves_eq_ok.mp accepted).1
  have founded := needs_induction accepted
    (motive := fun pass => ∀ other, Relation.ReflTransGen (Needs passes) pass other →
      ¬ Relation.TransGen (Needs passes) other other) (by
    intro pass member needed other leads cycle
    -- a cycle through the pass leads through one that it needs
    have closes : ∃ next, Needs passes pass next ∧ ∃ other,
      Relation.ReflTransGen (Needs passes) next other ∧
        Relation.TransGen (Needs passes) other other := by
      rcases Relation.ReflTransGen.cases_head leads with rfl | ⟨next, needs, further⟩
      · obtain ⟨next, needs, further⟩ := Relation.TransGen.head'_iff.mp cycle
        exact ⟨next, needs, pass, further, cycle⟩
      · exact ⟨next, needs, other, further, cycle⟩
    obtain ⟨next, needs, last, further, again⟩ := closes
    obtain ⟨same, listed, named, free⟩ := needed next.key needs.2
    obtain rfl := List.inj_on_of_nodup_map distinct listed needs.1 named
    exact free last further again)
  intro cycle
  obtain ⟨_, _, needs⟩ := Relation.TransGen.tail'_iff.mp cycle
  exact founded pass needs.1 pass .refl cycle

/-- Passes can be put into waves exactly if their keys are distinct, each pass that one depends on
is given, and none depends on itself through others. The waves are then the canonical ones, which
are unique; and making as many waves as there are passes is always enough to find them, or to find
that there are none. -/
theorem waves_canonical (passes : List (Pass σ κ φ)) :
    ((∃ layers, waves passes = .ok layers) ↔ (passes.map key).Nodup ∧
      (∀ pass ∈ passes, ∀ key ∈ pass.depends, key ∈ passes.map Pass.key) ∧
      ∀ pass, ¬ Relation.TransGen (Needs passes) pass pass) ∧
    (∀ layers, waves passes = .ok layers →
      Canonical passes layers ∧ ∀ others, Canonical passes others → others = layers) ∧
    ∀ fuel, passes.length ≤ fuel → layer fuel [] passes = layer passes.length [] passes := by
  refine ⟨⟨?_, ?_⟩, ?_, ?_⟩
  · rintro ⟨layers, accepted⟩
    obtain ⟨distinct, provided, _⟩ := waves_eq_ok.mp accepted
    exact ⟨distinct, provided, acyclic_of_waves accepted⟩
  · rintro ⟨distinct, provided, acyclic⟩
    obtain ⟨layers, stacked⟩ : ∃ layers, Stacked [] passes layers := by
      apply exists_stacked acyclic
      · intro pass member
        exact member
      · intro pass member key needed
        exact .inr (provided pass member key needed)
    exact ⟨layers, waves_eq_ok.mpr ⟨distinct, provided, stacked⟩⟩
  · intro layers accepted
    obtain ⟨distinct, _, stacked⟩ := waves_eq_ok.mp accepted
    constructor
    · exact stacked.canonical
    · intro others canonical
      exact canonical.unique stacked.canonical distinct
  · intro fuel enough
    exact layer_of_length_le enough

/-- The third of four passes stands two waves behind the last one, which it needs twice and also
through the first. -/
theorem waves_canonical_of_diamond :
    let run : Unit → Facts Nat Unit → Nat → Except PassStop (List Issue × Unit) :=
      fun _ _ _ => .ok ([], ())
    let root : Pass Unit Nat Unit := ⟨0, "root", [], run⟩
    let left : Pass Unit Nat Unit := ⟨1, "left", [0], run⟩
    let top : Pass Unit Nat Unit := ⟨2, "top", [0, 1, 0], run⟩
    let other : Pass Unit Nat Unit := ⟨3, "other", [], run⟩
    waves [left, other, top, root] = .ok [[other, root], [left], [top]] ∧
      Canonical [left, other, top, root] [[other, root], [left], [top]] ∧
      ∀ pass, ¬ Relation.TransGen (Needs [left, other, top, root]) pass pass := by
  intro run root left top other
  have accepted : waves [left, other, top, root] = .ok [[other, root], [left], [top]] := rfl
  obtain ⟨exactly, canonical, _⟩ := waves_canonical [left, other, top, root]
  exact ⟨accepted, (canonical _ accepted).1, (exactly.mp ⟨_, accepted⟩).2.2⟩

/-- A pass that needs itself is in no wave, whatever else is given. -/
example (run : Unit → Facts Nat Unit → Nat → Except PassStop (List Issue × Unit)) :
    waves [⟨0, "free", [], run⟩, ⟨1, "bound", [0, 1], run⟩] = .error (.circular ["bound"]) := rfl

end

end Pass

end Covenant
