import Covenant.Proofs.Lists
import Covenant.Proofs.Scan.Arrangement
import Covenant.Scan.Pass
import Mathlib.Data.List.Find
import Mathlib.Data.List.Nodup
import Mathlib.Logic.Relation

/-!
A pass that fails costs only itself and the passes that depend on it. How a pass ends is decided by
its own behaviour and by how the passes end that it depends on, directly or through others; the
behaviour of all other passes is of no account.
-/

namespace Covenant

namespace Pass

variable {σ κ φ : Type}

/-- A pass needs another one of the given passes if it depends on it directly. -/
def Needs (passes : List (Pass σ κ φ)) (pass other : Pass σ κ φ) : Prop :=
  other ∈ passes ∧ other.key ∈ pass.depends

def altered (alter : Pass σ κ φ → σ → Facts κ φ → Nat → Except PassStop (List Issue × φ))
    (pass : Pass σ κ φ) :
    Pass σ κ φ :=
  { pass with run := alter pass }

theorem mem_altered {alter : Pass σ κ φ → σ → Facts κ φ → Nat → Except PassStop (List Issue × φ)}
    {passes : List (Pass σ κ φ)} {pass : Pass σ κ φ} (member : pass ∈ passes)
    (same : alter pass = pass.run) :
    pass ∈ passes.map (altered alter) :=
  List.mem_map.mpr ⟨pass, member, by rw [altered, same]⟩

inductive Layered : List κ → List (List (Pass σ κ φ)) → Prop where
  | nil (placed : List κ) : Layered placed []
  | cons {placed : List κ} {wave : List (Pass σ κ φ)} {rest : List (List (Pass σ κ φ))}
      (ready : ∀ pass ∈ wave, ∀ key ∈ pass.depends, key ∈ placed)
      (later : Layered (placed ++ wave.map key) rest) : Layered placed (wave :: rest)

theorem Layered.induction {placed : List κ} {layers : List (List (Pass σ κ φ))}
    (layered : Layered placed layers) {motive : κ → Prop} (known : ∀ key ∈ placed, motive key)
    (step : ∀ pass ∈ layers.flatten, (∀ key ∈ pass.depends, motive key) → motive pass.key) :
    ∀ pass ∈ layers.flatten, motive pass.key := by
  induction layered with
  | nil placed => simp
  | @cons placed wave rest ready later ih =>
    have first (pass : Pass σ κ φ) (member : pass ∈ wave) : motive pass.key := by
      refine step pass (List.mem_append_left _ member) ?_
      intro key needed
      exact known key (ready pass member key needed)
    intro pass member
    rcases List.mem_append.mp member with inWave | inRest
    · exact first pass inWave
    · refine ih ?_ (fun pass inside => step pass (List.mem_append_right _ inside)) pass inRest
      intro key listed
      rcases List.mem_append.mp listed with earlier | placedNow
      · exact known key earlier
      · obtain ⟨other, inWave, rfl⟩ := List.mem_map.mp placedNow
        exact first other inWave

variable [BEq κ]

/-! What the order of passes guarantees. -/

section

variable [LawfulBEq κ]

theorem repeated?_eq_none {known : List κ} {passes : List (Pass σ κ φ)} :
    repeated? known passes = none ↔ (passes.map key).Nodup ∧ ∀ pass ∈ passes, pass.key ∉ known := by
  induction passes generalizing known with
  | nil => simp [repeated?]
  | cons pass rest ih =>
    simp only [repeated?, List.map_cons, List.nodup_cons, List.forall_mem_cons]
    split
    · rename_i listed
      have member : pass.key ∈ known := by simpa using listed
      simp [member]
    · rename_i unlisted
      have absent : pass.key ∉ known := by simpa using unlisted
      rw [ih]
      simp only [List.mem_cons, List.mem_map, not_or, not_exists, not_and]
      constructor
      · rintro ⟨distinct, others⟩
        exact ⟨⟨fun other member => (others other member).1, distinct⟩, absent,
          fun other member => (others other member).2⟩
      · rintro ⟨⟨different, distinct⟩, _, others⟩
        exact ⟨distinct, fun other member => ⟨different other member, others other member⟩⟩

theorem layered_of_layer {fuel : Nat} {placed : List κ} {passes : List (Pass σ κ φ)}
    {layers : List (List (Pass σ κ φ))} (layered : layer fuel placed passes = .ok layers) :
    Layered placed layers ∧ layers.flatten.Perm passes := by
  induction fuel generalizing placed passes layers with
  | zero =>
    cases passes with
    | nil =>
      obtain rfl := Except.ok.inj layered
      exact ⟨.nil _, .refl _⟩
    | cons pass rest => simp [layer] at layered
  | succ fuel ih =>
    cases passes with
    | nil =>
      obtain rfl := Except.ok.inj layered
      exact ⟨.nil _, .refl _⟩
    | cons pass rest =>
      simp only [layer, List.partition_eq_filter_filter] at layered
      split at layered
      · simp at layered
      · cases found : layer fuel (placed ++ ((pass :: rest).filter (isReady placed)).map key)
            ((pass :: rest).filter (not ∘ isReady placed)) with
        | error problem => simp [found, bind, Except.bind] at layered
        | ok others =>
          simp only [found, bind, Except.bind, pure, Except.pure, Except.ok.injEq] at layered
          obtain rfl := layered
          obtain ⟨later, same⟩ := ih found
          constructor
          · refine .cons ?_ later
            intro pass member key needed
            have ready := (List.mem_filter.mp member).2
            simpa using List.all_eq_true.mp ready key needed
          · rw [List.flatten_cons]
            exact (same.append_left _).trans (List.filter_append_perm _ _)

theorem layered_of_waves {passes : List (Pass σ κ φ)} {layers : List (List (Pass σ κ φ))}
    (accepted : waves passes = .ok layers) :
    (passes.map key).Nodup ∧ Layered [] layers ∧ layers.flatten.Perm passes := by
  simp only [waves] at accepted
  split at accepted
  · simp at accepted
  · rename_i once
    split at accepted
    · simp at accepted
    · obtain ⟨layered, same⟩ := layered_of_layer accepted
      exact ⟨(repeated?_eq_none.mp once).1, layered, same⟩

end

/-! Altering what passes do does not change their waves. -/

section

variable (alter : Pass σ κ φ → σ → Facts κ φ → Nat → Except PassStop (List Issue × φ))

theorem repeated?_altered (known : List κ) (passes : List (Pass σ κ φ)) :
    repeated? known (passes.map (altered alter)) = (repeated? known passes).map
      (altered alter) := by
  induction passes generalizing known with
  | nil => rfl
  | cons pass rest ih =>
    simp only [List.map_cons, repeated?, ih]
    split <;> simp_all [altered]

theorem layer_altered (fuel : Nat) (placed : List κ) (passes : List (Pass σ κ φ)) :
    layer fuel placed (passes.map (altered alter)) =
      (layer fuel placed passes).map fun layers => layers.map (List.map (altered alter)) := by
  have names (others : List (Pass σ κ φ)) : (others.map (altered alter)).map name =
      others.map name := by
    simp [altered]
  have keys (others : List (Pass σ κ φ)) : (others.map (altered alter)).map key =
      others.map key := by
    simp [altered]
  have ready : isReady placed ∘ altered alter = isReady placed := rfl
  induction fuel generalizing placed passes with
  | zero =>
    cases passes with
    | nil => rfl
    | cons pass rest => simp [layer, altered, Except.map]
  | succ fuel ih =>
    cases passes with
    | nil => rfl
    | cons pass rest =>
      have sorted : (altered alter pass :: rest.map (altered alter)).partition (isReady placed) =
          (((pass :: rest).filter (isReady placed)).map (altered alter),
            ((pass :: rest).filter (not ∘ isReady placed)).map (altered alter)) := by
        rw [← List.map_cons, List.partition_eq_filter_filter, List.filter_map, List.filter_map]
        rfl
      simp only [List.map_cons, layer, sorted, List.isEmpty_map, names, keys]
      simp only [List.partition_eq_filter_filter]
      split
      · rfl
      · rw [ih _ _ rfl]
        cases layer fuel (placed ++ ((pass :: rest).filter (isReady placed)).map key)
          ((pass :: rest).filter (not ∘ isReady placed)) <;> rfl

theorem waves_altered {passes : List (Pass σ κ φ)} {layers : List (List (Pass σ κ φ))}
    (accepted : waves passes = .ok layers) :
    waves (passes.map (altered alter)) = .ok (layers.map (List.map (altered alter))) := by
  have keys : (passes.map (altered alter)).map key = passes.map key := by simp [altered]
  simp only [waves] at accepted ⊢
  split at accepted
  · simp at accepted
  · rename_i once
    split at accepted
    · simp at accepted
    · rename_i complete
      rw [repeated?_altered, once, keys]
      have found : (passes.map (altered alter)).findSome?
          (fun pass => (pass.missing? (passes.map key)).map (pass.name, ·)) = none := by
        rw [List.findSome?_map]
        exact complete
      simp only [Option.map_none, found, List.length_map, layer_altered, accepted, Except.map]

end

/-! How passes end. -/

/-- The findings that a pass ends with. A failure is a finding of its own. -/
def reported : Except PassError (List Issue × φ) → List Issue
  | .ok (found, _) => found
  | .error problem => [incomplete problem]

def learned? : Except PassError (List Issue × φ) → Option φ
  | .ok (_, fact) => some fact
  | .error _ => none

def endings (names : List (κ × String)) (subject : σ) (budget : Nat) :
    Facts κ φ → List (List (Pass σ κ φ)) → List (κ × Except PassError (List Issue × φ))
  | _, [] => []
  | facts, wave :: rest =>
    wave.map (fun pass => (pass.key, runIsolated names subject facts budget pass)) ++
      endings names subject budget (runWave names subject budget facts wave).2 rest

def namesOf (layers : List (List (Pass σ κ φ))) : List (κ × String) :=
  layers.flatten.map fun pass => (pass.key, pass.name)

def ending? (subject : σ) (budget : Nat) (layers : List (List (Pass σ κ φ))) (key : κ) :
    Option (Except PassError (List Issue × φ)) :=
  (endings (namesOf layers) subject budget [] layers).lookup key

/-- Whether what a pass does is decided by the subject, its budget and what the passes have learned
that it declares to depend on. -/
def Confined (pass : Pass σ κ φ) : Prop :=
  ∀ (subject : σ) (facts others : Facts κ φ) (budget : Nat),
    (∀ key ∈ pass.depends, facts.lookup key = others.lookup key) →
      pass.run subject facts budget = pass.run subject others budget

/-- Whether a pass and all passes that it depends on, directly or through others, succeed where they
are given what has been learned. -/
def Completes (passes : List (Pass σ κ φ)) (subject : σ) (facts : Facts κ φ) (budget : Nat)
    (pass : Pass σ κ φ) :
    Prop :=
  ∀ other, Relation.ReflTransGen (Needs passes) pass other → ∃ result,
    other.run subject facts budget = .ok result

section

variable {names : List (κ × String)} {subject : σ} {budget : Nat} {facts : Facts κ φ}

theorem mem_runWave {wave : List (Pass σ κ φ)} {issue : Issue} :
    issue ∈ (runWave names subject budget facts wave).1 ↔
      ∃ pass ∈ wave, issue ∈ reported (runIsolated names subject facts budget pass) := by
  induction wave with
  | nil => simp [runWave]
  | cons pass rest ih =>
    simp only [runWave, List.exists_mem_cons_iff]
    rw [← ih]
    cases ran : runIsolated names subject facts budget pass with
    | error problem => simp [reported]
    | ok result => simp [reported]

theorem mem_runWaves {layers : List (List (Pass σ κ φ))} {issue : Issue} :
    issue ∈ (runWaves names subject budget facts layers).1 ↔
      ∃ entry ∈ endings names subject budget facts layers, issue ∈ reported entry.2 := by
  induction layers generalizing facts with
  | nil => simp [runWaves, endings]
  | cons wave rest ih =>
    simp only [runWaves, endings, List.mem_append, mem_runWave, ih, List.mem_map,
      or_and_right, exists_or]
    simp only [exists_exists_and_eq_and]

theorem keys_endings (layers : List (List (Pass σ κ φ))) :
    (endings names subject budget facts layers).map Prod.fst = layers.flatten.map key := by
  induction layers generalizing facts with
  | nil => rfl
  | cons wave rest ih => simp [endings, ih]

theorem runIsolated_eq_ok {pass : Pass σ κ φ} {result : List Issue × φ} :
    runIsolated names subject facts budget pass = .ok result ↔
      (∀ key ∈ pass.depends, (facts.lookup key).isSome) ∧ pass.run subject facts budget =
        .ok result := by
  unfold runIsolated
  cases missing : pass.depends.find? fun key => (facts.lookup key).isNone with
  | some key =>
    have absent := List.find?_some missing
    have needed := List.mem_of_find?_eq_some missing
    simp only [reduceCtorEq, false_iff, not_and]
    intro known
    have present := known key needed
    simp [Option.isNone_iff_eq_none.mp absent] at present
  | none =>
    have known : ∀ key ∈ pass.depends, (facts.lookup key).isSome := by
      simpa [Option.isSome_iff_ne_none] using List.find?_eq_none.mp missing
    rw [and_iff_right known]
    cases pass.run subject facts budget
      <;> simp only [Except.mapError, reduceCtorEq, Except.ok.injEq]

theorem runIsolated_congr {pass : Pass σ κ φ} (confined : pass.Confined) {others : Facts κ φ}
    (same : ∀ key ∈ pass.depends, facts.lookup key = others.lookup key) :
    runIsolated names subject facts budget pass = runIsolated names subject others budget pass := by
  have missing : pass.depends.find? (fun key => (facts.lookup key).isNone) =
      pass.depends.find? fun key => (others.lookup key).isNone := by
    apply List.find?_congr
    intro key needed
    rw [same key needed]
  simp only [runIsolated, missing, confined subject facts others budget same]

variable [LawfulBEq κ]

theorem lookup_runWave_of_notMem {wave : List (Pass σ κ φ)} {key : κ}
    (absent : key ∉ wave.map Pass.key) :
    (runWave names subject budget facts wave).2.lookup key = facts.lookup key := by
  induction wave with
  | nil => rfl
  | cons pass rest ih =>
    rw [List.map_cons, List.mem_cons, not_or] at absent
    have different : (key == pass.key) = false := by simpa using absent.1
    simp only [runWave]
    split
    · simp only [List.lookup_cons, different]
      exact ih absent.2
    · exact ih absent.2

theorem lookup_runWave {wave : List (Pass σ κ φ)} (distinct : (wave.map key).Nodup)
    {pass : Pass σ κ φ} (member : pass ∈ wave) (fresh : facts.lookup pass.key = none) :
    (runWave names subject budget facts wave).2.lookup pass.key =
      learned? (runIsolated names subject facts budget pass) := by
  induction wave with
  | nil => simp at member
  | cons first rest ih =>
    rw [List.map_cons, List.nodup_cons] at distinct
    simp only [runWave]
    rcases List.mem_cons.mp member with rfl | later
    · split
      · rename_i ran
        simp [ran, learned?]
      · rename_i ran
        simp only [ran, learned?, lookup_runWave_of_notMem distinct.1, fresh]
    · have different : (pass.key == first.key) = false := by
        rw [beq_eq_false_iff_ne]
        intro same
        exact distinct.1 (same ▸ List.mem_map_of_mem later)
      split
      · simp only [List.lookup_cons, different]
        exact ih distinct.2 later
      · exact ih distinct.2 later

theorem lookup_runWaves_of_notMem {layers : List (List (Pass σ κ φ))} {key : κ}
    (absent : key ∉ layers.flatten.map Pass.key) :
    (runWaves names subject budget facts layers).2.lookup key = facts.lookup key := by
  induction layers generalizing facts with
  | nil => rfl
  | cons wave rest ih =>
    rw [List.flatten_cons, List.map_append, List.mem_append, not_or] at absent
    simp only [runWaves]
    rw [ih absent.2, lookup_runWave_of_notMem absent.1]

/-- Each pass ends as it would where it is given all that is known in the end. -/
theorem lookup_endings {placed : List κ} {layers : List (List (Pass σ κ φ))}
    (layered : Layered placed layers) (distinct : (placed ++ layers.flatten.map key).Nodup)
    (fresh : ∀ key ∉ placed, facts.lookup key = none) {pass : Pass σ κ φ}
    (confined : pass.Confined) (member : pass ∈ layers.flatten) :
    let final := (runWaves names subject budget facts layers).2
    (endings names subject budget facts layers).lookup pass.key =
        some (runIsolated names subject final budget pass) ∧
      final.lookup pass.key = learned? (runIsolated names subject final budget pass) := by
  induction layered generalizing facts with
  | nil placed => simp at member
  | @cons placed wave rest ready later ih =>
    rw [List.flatten_cons, List.map_append, ← List.append_assoc] at distinct
    obtain ⟨early, _, late⟩ := List.nodup_append'.mp distinct
    obtain ⟨_, inOrder, apart⟩ := List.nodup_append'.mp early
    simp only [runWaves, endings]
    rcases List.mem_append.mp member with inWave | inRest
    · have unplaced : pass.key ∉ placed := fun listed => apart listed (List.mem_map_of_mem inWave)
      have unrepeated : pass.key ∉ rest.flatten.map key := fun listed =>
        late (List.mem_append_right _ (List.mem_map_of_mem inWave)) listed
      -- what the pass depends on is placed, and no later wave changes what is known of that
      have kept (key : κ) (needed : key ∈ pass.depends) :
          facts.lookup key =
            (runWaves names subject budget (runWave names subject budget facts wave).2
              rest).2.lookup key := by
        have listed := ready pass inWave key needed
        rw [lookup_runWaves_of_notMem (fun again => late (List.mem_append_left _ listed) again),
          lookup_runWave_of_notMem (fun again => apart listed again)]
      rw [← runIsolated_congr confined kept, lookup_runWaves_of_notMem unrepeated,
        lookup_runWave inOrder inWave (fresh _ unplaced)]
      refine ⟨?_, rfl⟩
      rw [List.lookup_append, lookup_map, find?_eq_some_of_nodup inOrder inWave]
      rfl
    · have unwaved : pass.key ∉ wave.map key := fun listed =>
        late (List.mem_append_right _ listed) (List.mem_map_of_mem inRest)
      have unknown (key : κ) (absent : key ∉ placed ++ wave.map Pass.key) :
          (runWave names subject budget facts wave).2.lookup key = none := by
        rw [List.mem_append, not_or] at absent
        rw [lookup_runWave_of_notMem absent.2, fresh key absent.1]
      obtain ⟨logged, recorded⟩ := ih distinct unknown inRest
      refine ⟨?_, recorded⟩
      have skipped :
        (wave.map fun other => (other.key, runIsolated names subject facts budget other)).lookup
          pass.key =
          none := by
        rw [lookup_map, Option.map_eq_none_iff, List.find?_eq_none]
        intro other inWave same
        exact unwaved (eq_of_beq same ▸ List.mem_map_of_mem inWave)
      rw [List.lookup_append, skipped, Option.none_or, logged]

end

/-! What a run of all waves comes to. -/

section

variable [LawfulBEq κ] {passes : List (Pass σ κ φ)} {layers : List (List (Pass σ κ φ))}

theorem ending?_eq (accepted : waves passes = .ok layers) {pass : Pass σ κ φ}
    (confined : pass.Confined) (member : pass ∈ passes) (subject : σ) (budget : Nat) :
    let known := (runAll subject budget layers).2
    ending? subject budget layers pass.key =
      some (runIsolated (namesOf layers) subject known budget pass) ∧
      known.lookup pass.key =
        learned? (runIsolated (namesOf layers) subject known budget pass) := by
  obtain ⟨distinct, layered, same⟩ := layered_of_waves accepted
  have once : ([] ++ layers.flatten.map key).Nodup := (same.map key).nodup_iff.mpr distinct
  exact lookup_endings layered once (fun _ _ => rfl) confined (same.mem_iff.mpr member)

theorem needs_induction (accepted : waves passes = .ok layers) {motive : Pass σ κ φ → Prop}
    (step : ∀ pass ∈ passes,
      (∀ key ∈ pass.depends, ∃ other ∈ passes, other.key = key ∧ motive other) → motive pass) :
    ∀ pass ∈ passes, motive pass := by
  obtain ⟨distinct, layered, same⟩ := layered_of_waves accepted
  have held := layered.induction
      (motive := fun key => ∃ other ∈ passes, other.key = key ∧ motive other) (by simp) (by
    intro pass listed needed
    have member := same.mem_iff.mp listed
    exact ⟨pass, member, rfl, step pass member needed⟩)
  intro pass member
  obtain ⟨other, listed, named, holds⟩ := held pass (same.mem_iff.mpr member)
  rwa [List.inj_on_of_nodup_map distinct listed member named] at holds

/-- A pass succeeds exactly if it does so by itself and all passes do that it depends on. -/
theorem succeeds_iff (accepted : waves passes = .ok layers)
    (confined : ∀ pass ∈ passes, pass.Confined) (subject : σ) (budget : Nat) {pass : Pass σ κ φ}
    (member : pass ∈ passes) :
    let known := (runAll subject budget layers).2
    (∃ result, runIsolated (namesOf layers) subject known budget pass = .ok result) ↔
      Completes passes subject known budget pass := by
  intro known
  have recorded (other : Pass σ κ φ) (listed : other ∈ passes) :
      (known.lookup other.key).isSome ↔
        ∃ result, runIsolated (namesOf layers) subject known budget other = .ok result := by
    rw [(ending?_eq accepted (confined other listed) listed subject budget).2]
    cases runIsolated (namesOf layers) subject known budget other <;> simp [learned?]
  constructor
  · intro succeeded other reached
    have all : other ∈ passes ∧ ∃ result, runIsolated (namesOf layers) subject known budget other =
        .ok result := by
      induction reached with
      | refl => exact ⟨member, succeeded⟩
      | tail _ needs ih =>
        obtain ⟨_, _, ran⟩ := ih
        exact ⟨needs.1, (recorded _ needs.1).mp ((runIsolated_eq_ok.mp ran).1 _ needs.2)⟩
    obtain ⟨_, result, ran⟩ := all
    exact ⟨result, (runIsolated_eq_ok.mp ran).2⟩
  · refine needs_induction accepted
      (motive := fun pass => Completes passes subject known budget pass →
      ∃ result, runIsolated (namesOf layers) subject known budget pass = .ok result) ?_ pass member
    intro pass member needed completes
    obtain ⟨result, ran⟩ := completes pass .refl
    refine ⟨result, runIsolated_eq_ok.mpr ⟨?_, ran⟩⟩
    intro key depended
    obtain ⟨other, listed, rfl, succeeds⟩ := needed key depended
    refine (recorded other listed).mpr (succeeds ?_)
    intro further reached
    exact completes further (.head ⟨listed, depended⟩ reached)

/-- How a pass ends does not depend on what those passes do that it does not need. -/
theorem ending?_altered (accepted : waves passes = .ok layers)
    (confined : ∀ pass ∈ passes, pass.Confined) (subject : σ) (budget : Nat)
    (alter : Pass σ κ φ → σ → Facts κ φ → Nat → Except PassStop (List Issue × φ))
    {pass : Pass σ κ φ} (member : pass ∈ passes)
    (kept : ∀ other, Relation.ReflTransGen (Needs passes) pass other → alter other = other.run) :
    ending? subject budget (layers.map (List.map (altered alter))) pass.key =
      ending? subject budget layers pass.key := by
  have accepted' := waves_altered alter accepted
  have names : namesOf (layers.map (List.map (altered alter))) = namesOf layers := by
    simp only [namesOf, ← List.map_flatten, List.map_map]
    rfl
  refine needs_induction accepted (motive := fun pass =>
    (∀ other, Relation.ReflTransGen (Needs passes) pass other → alter other = other.run) →
      ending? subject budget (layers.map (List.map (altered alter))) pass.key =
        ending? subject budget layers pass.key) ?_ pass member kept
  intro pass member needed kept
  have listed := mem_altered member (kept pass .refl)
  rw [(ending?_eq accepted' (confined pass member) listed subject budget).1,
    (ending?_eq accepted (confined pass member) member subject budget).1, names]
  congr 1
  apply runIsolated_congr (confined pass member)
  intro key depended
  obtain ⟨other, listed, rfl, same⟩ := needed key depended
  have keptToo (further : Pass σ κ φ)
      (reached : Relation.ReflTransGen (Needs passes) other further) :=
    kept further (.head ⟨listed, depended⟩ reached)
  have ends := ending?_eq accepted (confined other listed) listed subject budget
  have ends' := ending?_eq accepted' (confined other listed)
    (mem_altered listed (keptToo other .refl)) subject budget
  have alike := same keptToo
  rw [ends.1, ends'.1, Option.some_inj] at alike
  rw [ends.2, ends'.2, alike]

theorem mem_runAll (accepted : waves passes = .ok layers) {subject : σ} {budget : Nat}
    {issue : Issue} :
    issue ∈ (runAll subject budget layers).1 ↔
      ∃ pass ∈ passes, ∃ ending, ending? subject budget layers pass.key = some ending ∧
      issue ∈ reported ending := by
  obtain ⟨distinct, _, same⟩ := layered_of_waves accepted
  have keys : (endings (namesOf layers) subject budget [] layers).map Prod.fst =
      layers.flatten.map key :=
    keys_endings layers
  have once : ((endings (namesOf layers) subject budget [] layers).map Prod.fst).Nodup := by
    rw [keys]
    exact (same.map key).nodup_iff.mpr distinct
  have all : issue ∈ (runAll subject budget layers).1 ↔
      ∃ entry ∈ endings (namesOf layers) subject budget [] layers, issue ∈ reported entry.2 := by
    rw [← mem_runWaves]
    exact Issue.mem_arrange
  rw [all]
  constructor
  · rintro ⟨⟨key, ending⟩, listed, found⟩
    have named : key ∈ layers.flatten.map Pass.key := keys ▸ List.mem_map_of_mem listed
    obtain ⟨pass, member, rfl⟩ := List.mem_map.mp named
    exact ⟨pass, same.mem_iff.mp member, ending, lookup_of_mem once listed, found⟩
  · rintro ⟨pass, _, ending, ended, found⟩
    exact ⟨(pass.key, ending), mem_of_lookup ended, found⟩

theorem lookup_runAll (accepted : waves passes = .ok layers)
    (confined : ∀ pass ∈ passes, pass.Confined) {subject : σ} {budget : Nat} {key : κ} {fact : φ} :
    (runAll subject budget layers).2.lookup key = some fact ↔
      ∃ pass ∈ passes, pass.key = key ∧
        ∃ ending, ending? subject budget layers pass.key = some ending ∧
        learned? ending = some fact := by
  obtain ⟨_, _, same⟩ := layered_of_waves accepted
  constructor
  · intro known
    by_cases named : key ∈ layers.flatten.map Pass.key
    · obtain ⟨pass, listed, rfl⟩ := List.mem_map.mp named
      have member := same.mem_iff.mp listed
      obtain ⟨ended, recorded⟩ := ending?_eq accepted (confined pass member) member subject budget
      exact ⟨pass, member, rfl, _, ended, recorded ▸ known⟩
    · have unknown : (runAll subject budget layers).2.lookup key = none :=
        lookup_runWaves_of_notMem named
      simp [unknown] at known
  · rintro ⟨pass, member, rfl, ending, ended, learned⟩
    obtain ⟨ended', recorded⟩ := ending?_eq accepted (confined pass member) member subject budget
    obtain rfl := Option.some.inj (ended.symm.trans ended')
    rw [recorded, learned]

/-- Failures of passes are isolated. A run gives, in order and each one once, the findings that its
passes end with, and the facts that they have learned. A pass that succeeds together with all passes
that it depends on ends with its own findings and its fact; any other one ends with a single
advisory of low severity and no fact. Whatever the passes do that a pass does not depend on, they
are put into the same waves and the pass ends in the same way. -/
theorem failures_isolated (accepted : waves passes = .ok layers)
    (confined : ∀ pass ∈ passes, pass.Confined) (subject : σ) (budget : Nat) :
    let result := runAll subject budget layers
    (Ascending Issue.order result.1 ∧ ∀ issue, issue ∈ result.1 ↔
      ∃ pass ∈ passes, ∃ ending, ending? subject budget layers pass.key = some ending ∧
      issue ∈ reported ending) ∧
    (∀ key fact, result.2.lookup key = some fact ↔
      ∃ pass ∈ passes, pass.key = key ∧
        ∃ ending, ending? subject budget layers pass.key = some ending ∧
        learned? ending = some fact) ∧
    ∀ pass ∈ passes, ∃ ending, ending? subject budget layers pass.key = some ending ∧
      result.2.lookup pass.key = learned? ending ∧
      (Completes passes subject result.2 budget pass →
        ∃ found fact, pass.run subject result.2 budget = .ok (found, fact) ∧
        reported ending = found ∧
          learned? ending = some fact) ∧
      (¬ Completes passes subject result.2 budget pass →
        ∃ issue, issue.id = Issue.incompleteId ∧ issue.severity = .low ∧ reported ending = [issue] ∧
          learned? ending = none) ∧
      ∀ alter,
        (∀ other, Relation.ReflTransGen (Needs passes) pass other → alter other = other.run) →
        let layers' := layers.map (List.map (altered alter))
        waves (passes.map (altered alter)) = .ok layers' ∧ ending? subject budget layers' pass.key =
          some ending ∧
          (runAll subject budget layers').2.lookup pass.key = learned? ending := by
  intro result
  refine ⟨⟨Issue.ascending_arrange _, fun _ => mem_runAll accepted⟩, fun _ _ =>
    lookup_runAll accepted confined, ?_⟩
  intro pass member
  obtain ⟨ended, recorded⟩ := ending?_eq accepted (confined pass member) member subject budget
  have succeeds := succeeds_iff accepted confined subject budget member
  refine ⟨_, ended, recorded, ?_, ?_, ?_⟩
  · intro completes
    obtain ⟨⟨found, fact⟩, ran⟩ := succeeds.mpr completes
    rw [ran]
    exact ⟨found, fact, (runIsolated_eq_ok.mp ran).2, rfl, rfl⟩
  · intro fails
    cases ran : runIsolated (namesOf layers) subject result.2 budget pass with
    | ok pair => exact absurd (succeeds.mp ⟨pair, ran⟩) fails
    | error problem => exact ⟨incomplete problem, rfl, rfl, rfl, rfl⟩
  · intro alter kept
    have accepted' := waves_altered alter accepted
    have same := (ending?_altered accepted confined subject budget alter member kept).trans ended
    obtain ⟨ended', recorded'⟩ := ending?_eq accepted' (confined pass member)
      (mem_altered member (kept pass .refl)) subject budget
    rw [Option.some.inj (ended'.symm.trans same)] at recorded'
    exact ⟨accepted', same, recorded'⟩

/-- Of three passes the first one panics and the second one needs it. The third one stands alone: it
keeps its finding, also where the others succeed. -/
theorem failures_isolated_of_panic :
    let found : Issue :=
      { location := none, id := "loop", severity := .high, function := none, message := "endless" }
    let broken : Pass Unit Nat Unit := ⟨0, "broken", [], fun _ _ _ => .error (.panicked none)⟩
    let dependent : Pass Unit Nat Unit := ⟨1, "dependent", [0], fun _ _ _ => .ok ([], ())⟩
    let separate : Pass Unit Nat Unit := ⟨2, "separate", [], fun _ _ _ => .ok ([found], ())⟩
    let alter : Pass Unit Nat Unit → Unit → Facts Nat Unit → Nat →
        Except PassStop (List Issue × Unit) := fun pass =>
      if pass.key = 2 then pass.run else fun _ _ _ => .ok ([], ())
    let layers := [[broken, separate], [dependent]]
    waves [broken, dependent, separate] = .ok layers ∧
      (∀ pass ∈ [broken, dependent, separate], pass.Confined) ∧
      found ∈ (runAll () 5 layers).1 ∧ ¬ Completes [broken, dependent, separate] ()
        (runAll () 5 layers).2 5 dependent ∧
      ending? () 5 (layers.map (List.map (altered alter))) 2 = some (.ok ([found], ())) := by
  intro found broken dependent separate alter layers
  have accepted : waves [broken, dependent, separate] = .ok layers := rfl
  have confined : ∀ pass ∈ [broken, dependent, separate], pass.Confined := by
    intro pass member subject facts others budget _
    simp only [List.mem_cons, List.not_mem_nil, or_false] at member
    rcases member with rfl | rfl | rfl <;> rfl
  obtain ⟨⟨_, listed⟩, _, each⟩ := failures_isolated accepted confined () 5
  obtain ⟨ending, ended, _, _, _, unaffected⟩ := each separate (by simp)
  obtain rfl : Except.ok ([found], ()) = ending := Option.some.inj ended
  have alone (other : Pass Unit Nat Unit)
      (reached : Relation.ReflTransGen (Needs [broken, dependent, separate]) separate other) :
      other = separate := by
    rcases reached.cases_head with rfl | ⟨needed, needs, _⟩
    · rfl
    · simp [Needs, separate] at needs
  refine ⟨accepted, confined, ?_, ?_, (unaffected alter ?_).2.1⟩
  · exact (listed found).mpr ⟨separate, by simp, _, ended, List.mem_cons_self⟩
  · intro completes
    obtain ⟨result, ran⟩ := completes broken (.single ⟨by simp, by simp [dependent, broken]⟩)
    simp [broken] at ran
  · intro other reached
    rw [alone other reached]
    rfl

end

end Pass

end Covenant
