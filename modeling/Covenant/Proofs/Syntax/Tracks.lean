import Covenant.Proofs.Syntax.Headings
import Covenant.Proofs.Syntax.Layout

/-!
How far a step of the parser gets, and where the nodes it gives lie. Each step leads from a place in
the text to one that is not before it, also where it fails, and what it gives lies between the two.
-/

namespace Covenant

namespace ParseState

structure Ordered (limit : Nat) (state : ParseState) : Prop where
  filled : ∀ lexeme ∈ state.rest, lexeme.span.start < lexeme.span.stop ∧ lexeme.span.stop ≤ limit
  apart : state.rest.Pairwise fun first second => first.span.stop ≤ second.span.start
  behind : ∀ lexeme ∈ state.rest, state.previousStop ≤ lexeme.span.start
  inside : state.previousStop ≤ limit

def front (state : ParseState) : Nat := state.span.start

structure Leads (limit : Nat) (state next : ParseState) : Prop where
  ordered : next.Ordered limit
  moves : next.rest = state.rest ∧ next.previousStop = state.previousStop ∨
    state.front < next.previousStop

variable {limit : Nat} {state middle next : ParseState}

theorem front_of_cons {lexeme : Lexeme} {rest : List Lexeme} (left : state.rest = lexeme :: rest) :
    state.front = lexeme.span.start := by
  simp [front, span, left]

theorem front_of_nil (left : state.rest = []) : state.front = state.previousStop := by
  simp [front, span, left]

theorem front_congr (rest : next.rest = state.rest)
    (stop : next.previousStop = state.previousStop) :
    next.front = state.front := by
  cases left : state.rest with
  | nil => rw [front_of_nil left, front_of_nil (rest.trans left), stop]
  | cons lexeme others => rw [front_of_cons left, front_of_cons (rest.trans left)]

theorem Ordered.stop_le_front (ordered : state.Ordered limit) :
    state.previousStop ≤ state.front := by
  cases left : state.rest with
  | nil => exact Nat.le_of_eq (front_of_nil left).symm
  | cons lexeme others =>
    rw [front_of_cons left]
    exact ordered.behind lexeme (by simp [left])

theorem Ordered.leads (ordered : state.Ordered limit) : state.Leads limit state :=
  ⟨ordered, .inl ⟨rfl, rfl⟩⟩

theorem Leads.front_le (leads : state.Leads limit next) : state.front ≤ next.front := by
  rcases leads.moves with ⟨rest, stop⟩ | moved
  · exact Nat.le_of_eq (front_congr rest stop).symm
  · have := leads.ordered.stop_le_front
    omega

theorem Leads.stop_le (leads : state.Leads limit next) (ordered : state.Ordered limit) :
    state.previousStop ≤ next.previousStop := by
  rcases leads.moves with ⟨_, stop⟩ | moved
  · omega
  · have := ordered.stop_le_front
    omega

theorem Leads.trans (first : state.Leads limit middle) (second : middle.Leads limit next) :
    state.Leads limit next := by
  refine ⟨second.ordered, ?_⟩
  have further := second.front_le
  rcases first.moves with ⟨rest, stop⟩ | moved
  · rcases second.moves with ⟨rest', stop'⟩ | moved
    · exact .inl ⟨rest'.trans rest, stop'.trans stop⟩
    · rw [front_congr rest stop] at moved
      exact .inr moved
  · have := second.stop_le first.ordered
    exact .inr (by omega)

theorem Leads.passed (leads : state.Leads limit next)
    (shorter : next.rest.length < state.rest.length) :
    state.front < next.previousStop := by
  rcases leads.moves with ⟨rest, _⟩ | moved
  · rw [rest] at shorter
    omega
  · exact moved

theorem Ordered.bump (ordered : state.Ordered limit) : state.Leads limit state.bump := by
  cases left : state.rest with
  | nil =>
    have same : state.bump = state := by simp [ParseState.bump, left]
    rw [same]
    exact ordered.leads
  | cons lexeme rest =>
    have later : state.bump.rest = rest := by rw [rest_bump, left]; rfl
    have stop : state.bump.previousStop = lexeme.span.stop := by
      simp [ParseState.bump, left, previousStop]
    have apart := ordered.apart
    have own := ordered.filled lexeme (by simp [left])
    rw [left, List.pairwise_cons] at apart
    refine ⟨⟨?_, ?_, ?_, ?_⟩, ?_⟩
    · intro other member
      rw [later] at member
      exact ordered.filled other (by simp [left, member])
    · rw [later]
      exact apart.2
    · intro other member
      rw [later] at member
      rw [stop]
      exact apart.1 other member
    · rw [stop]
      exact own.2
    · rw [front_of_cons left, stop]
      exact .inr own.1

theorem Ordered.congr (ordered : state.Ordered limit) (rest : next.rest = state.rest)
    (stop : next.previousStop = state.previousStop) : state.Leads limit next := by
  refine ⟨⟨?_, ?_, ?_, ?_⟩, .inl ⟨rest, stop⟩⟩
  · rw [rest]
    exact ordered.filled
  · rw [rest]
    exact ordered.apart
  · rw [rest, stop]
    exact ordered.behind
  · rw [stop]
    exact ordered.inside

theorem span_of_peek {token : Token} (found : state.peek? = some token) :
    state.span = ⟨state.front, state.bump.previousStop⟩ := by
  obtain ⟨span, left⟩ := rest_of_peek found
  generalize state.bump.rest = rest at left
  simp [front, ParseState.span, ParseState.bump, left, previousStop]

end ParseState

namespace Parse

open ParseState (Ordered Leads)

def Meets {α : Type} (limit : Nat) (goal : α → ParseState → Prop) (step : Parse α)
    (state : ParseState) : Prop :=
  match step state with
  | .ok result next => state.Leads limit next ∧ goal result next
  | .error _ next => state.Leads limit next

def Tracks {α : Type} (limit : Nat) (view : α → List Node) (step : Parse α) : Prop :=
  ∀ state : ParseState, state.Ordered limit →
    Meets limit (fun result next => Node.Laid limit state.front next.previousStop (view result))
      step state

abbrev Roams {α : Type} (limit : Nat) (step : Parse α) : Prop := Tracks limit (fun _ => []) step

abbrev Places {α : Type} (limit : Nat) (kind : α → Node) (step : Parse α) : Prop :=
  Tracks limit (fun result => [kind result]) step

structure Gathered (limit start : Nat) (seen : List Node) (state : ParseState) : Prop where
  ordered : state.Ordered limit
  behind : start ≤ state.front
  laid : Node.Laid limit start state.previousStop seen

structure Underway (limit start : Nat) (seen : List Node) (state : ParseState) : Prop
    extends Gathered limit start seen state where
  begun : start < state.previousStop

variable {α β : Type} {limit : Nat} {state : ParseState} {view : α → List Node}
  {goal : β → ParseState → Prop} {start : Nat} {seen : List Node} {token : Token}

section Rules

variable {reached : α → ParseState → Prop}

theorem Meets.of_ok {step : Parse α} {result : α} {next : ParseState}
    (meets : Meets limit reached step state) (stepped : step state = .ok result next) :
    state.Leads limit next ∧ reached result next := by
  unfold Meets at meets
  rwa [stepped] at meets

theorem Meets.of_error {step : Parse α} {problem : Diagnostic} {next : ParseState}
    (meets : Meets limit reached step state) (stepped : step state = .error problem next) :
    state.Leads limit next := by
  unfold Meets at meets
  rwa [stepped] at meets

theorem meets_pure {result : β} (ordered : state.Ordered limit) (done : goal result state) :
    Meets limit goal (pure result) state :=
  ⟨ordered.leads, done⟩

theorem meets_throw (problem : Diagnostic) (ordered : state.Ordered limit) :
    Meets limit goal (throw problem) state :=
  ordered.leads

theorem Meets.bind {step : Parse α} {next : α → Parse β} (first : Meets limit reached step state)
    (second : ∀ result later, step state = .ok result later → state.Leads limit later →
      reached result later →
      Meets limit goal (next result) later) : Meets limit goal (step >>= next) state := by
  unfold Meets
  cases stepped : step state with
  | error problem later =>
    rw [bind_of_error stepped]
    exact first.of_error stepped
  | ok result later =>
    obtain ⟨leads, holds⟩ := first.of_ok stepped
    have meets := second result later stepped leads holds
    rw [bind_of_ok stepped]
    cases ended : next result later with
    | error problem last => exact leads.trans (meets.of_error ended)
    | ok final last =>
      obtain ⟨further, done⟩ := meets.of_ok ended
      exact ⟨leads.trans further, done⟩

theorem Meets.weaken {step : Parse β} {other : β → ParseState → Prop}
    (meets : Meets limit goal step state)
    (weaker : ∀ result next, state.Leads limit next → goal result next → other result next) :
    Meets limit other step state := by
  unfold Meets at meets ⊢
  split at meets
  · exact ⟨meets.1, weaker _ _ meets.1 meets.2⟩
  · exact meets

theorem meets_look {look : Parse α} {next : α → Parse β} {found : α}
    (looks : look state = .ok found state) (second : Meets limit goal (next found) state) :
    Meets limit goal (look >>= next) state := by
  unfold Meets at second ⊢
  rwa [bind_of_ok looks]

theorem meets_map {step : Parse α} {change : α → β}
    (first : Meets limit (fun result next => goal (change result) next) step state) :
    Meets limit goal (change <$> step) state := by
  unfold Meets at first ⊢
  cases stepped : step state with
  | ok result next =>
    have changed : (change <$> step) state = .ok (change result) next := by
      simp only [Functor.map, EStateM.map, stepped]
    rw [stepped] at first
    rwa [changed]
  | error problem next =>
    have failed : (change <$> step) state = .error problem next := by
      simp only [Functor.map, EStateM.map, stepped]
    rw [stepped] at first
    rwa [failed]

theorem meets_ite {condition : Prop} [Decidable condition] {first second : Parse β}
    (yes : Meets limit goal first state) (no : Meets limit goal second state) :
    Meets limit goal (if condition then first else second) state := by
  split
  · exact yes
  · exact no

theorem Tracks.roams {step : Parse α} (tracks : Tracks limit view step) : Roams limit step :=
  fun state ordered => (tracks state ordered).weaken fun _ _ _ _ => Node.laid_nil _ _ _

theorem Tracks.map {step : Parse α} {change : α → β} {other : β → List Node}
    (tracks : Tracks limit (fun result => other (change result)) step) :
    Tracks limit other (change <$> step) :=
  fun state ordered => meets_map (tracks state ordered)

theorem Roams.seq {step : Parse α} {next : α → Parse β} (first : Roams limit step)
    (second : ∀ result, Roams limit (next result)) : Roams limit (step >>= next) := by
  intro state ordered
  refine (first state ordered).bind ?_
  intro result later _ leads _
  exact (second result later leads.ordered).weaken fun _ _ _ _ => Node.laid_nil _ _ _

theorem Roams.map {step : Parse α} (roams : Roams limit step) (change : α → β) :
    Roams limit (change <$> step) :=
  fun state ordered => meets_map (roams state ordered)

theorem roams_pure (result : α) : Roams limit (pure result) :=
  fun _ ordered => meets_pure ordered (Node.laid_nil _ _ _)

theorem roams_ite {condition : Prop} [Decidable condition] {first second : Parse α}
    (yes : Roams limit first) (no : Roams limit second) :
    Roams limit (if condition then first else second) :=
  fun state ordered => meets_ite (yes state ordered) (no state ordered)

theorem Roams.tracks {step : Parse α} (roams : Roams limit step)
    (silent : ∀ result, view result = []) :
    Tracks limit view step := by
  refine fun state ordered => (roams state ordered).weaken fun result _ _ laid => ?_
  rw [silent result]
  exact laid

theorem gathered_start (ordered : state.Ordered limit) : Gathered limit state.front [] state :=
  ⟨ordered, Nat.le_refl _, Node.laid_nil _ _ _⟩

theorem Gathered.extend {later : ParseState} {found : List Node}
    (gathered : Gathered limit start seen state) (leads : state.Leads limit later)
    (laid : Node.Laid limit state.front later.previousStop found) :
    Gathered limit start (seen ++ found) later := by
  have further := leads.front_le
  have behind := gathered.behind
  have between := gathered.ordered.stop_le_front
  have after := leads.stop_le gathered.ordered
  exact ⟨leads.ordered, by omega, gathered.laid.append laid behind between after⟩

theorem Underway.extend {later : ParseState} {found : List Node}
    (under : Underway limit start seen state) (leads : state.Leads limit later)
    (laid : Node.Laid limit state.front later.previousStop found) :
    Underway limit start (seen ++ found) later := by
  have after := leads.stop_le under.ordered
  have begun := under.begun
  exact ⟨under.toGathered.extend leads laid, by omega⟩

theorem Gathered.add {step : Parse α} {next : α → Parse β}
    (gathered : Gathered limit start seen state) (first : Tracks limit view step)
    (second : ∀ result later, Gathered limit start (seen ++ view result) later →
      Meets limit goal (next result) later) :
    Meets limit goal (step >>= next) state :=
  (first state gathered.ordered).bind fun result later _ leads laid =>
    second result later (gathered.extend leads laid)

theorem Gathered.skip {step : Parse α} {next : α → Parse β}
    (gathered : Gathered limit start seen state) (first : Roams limit step)
    (second : ∀ result later, Gathered limit start seen later →
      Meets limit goal (next result) later) :
    Meets limit goal (step >>= next) state := by
  refine gathered.add first ?_
  intro result later gathered
  rw [List.append_nil] at gathered
  exact second result later gathered

theorem Underway.add {step : Parse α} {next : α → Parse β}
    (under : Underway limit start seen state) (first : Tracks limit view step)
    (second : ∀ result later, Underway limit start (seen ++ view result) later →
      Meets limit goal (next result) later) :
    Meets limit goal (step >>= next) state :=
  (first state under.ordered).bind fun result later _ leads laid =>
    second result later (under.extend leads laid)

theorem Underway.skip {step : Parse α} {next : α → Parse β}
    (under : Underway limit start seen state) (first : Roams limit step)
    (second : ∀ result later, Underway limit start seen later →
      Meets limit goal (next result) later) :
    Meets limit goal (step >>= next) state := by
  refine under.add first ?_
  intro result later under
  rw [List.append_nil] at under
  exact second result later under

theorem Underway.addOptional {part : Parse α} {next : Option α → Parse β} {present : Prop}
    [Decidable present] (under : Underway limit start seen state) (inner : Tracks limit view part)
    (after : ∀ found later, Underway limit start (seen ++ found.toList.flatMap view) later →
      Meets limit goal (next found) later) :
    Meets limit goal (if present then some <$> part >>= next else pure none >>= next) state := by
  have some : Tracks limit (fun found => Option.toList found |>.flatMap view) (some <$> part) := by
    refine Tracks.map ?_
    simpa using inner
  have none : Tracks limit (fun found => Option.toList found |>.flatMap view)
      (pure none : Parse (Option α)) :=
    fun _ ordered => meets_pure ordered (Node.laid_nil _ _ _)
  exact meets_ite (under.add some after) (under.add none after)

theorem Underway.skipOptional {part : Parse α} {next : Option α → Parse β} {present : Prop}
    [Decidable present] (under : Underway limit start seen state) (inner : Roams limit part)
    (after : ∀ found later, Underway limit start seen later → Meets limit goal (next found) later) :
    Meets limit goal (if present then some <$> part >>= next else pure none >>= next) state :=
  meets_ite (under.skip (Roams.map inner _) after) (under.skip (roams_pure none) after)

theorem Gathered.enter {step : Parse α} {next : α → Parse β}
    (gathered : Gathered limit start seen state) (first : Tracks limit view step)
    (consumes : ∀ result later, step state = .ok result later → later.rest.length <
      state.rest.length)
    (second : ∀ result later, Underway limit start (seen ++ view result) later →
      Meets limit goal (next result) later) :
    Meets limit goal (step >>= next) state := by
  refine (first state gathered.ordered).bind ?_
  intro result later stepped leads laid
  have behind := gathered.behind
  have passed := leads.passed (consumes result later stepped)
  exact second result later ⟨gathered.extend leads laid, by omega⟩

theorem Gathered.bump (gathered : Gathered limit start [] state)
    (found : state.peek? = some token) :
    Underway limit start [] state.bump := by
  have leads := gathered.ordered.bump
  have behind := gathered.behind
  have passed := leads.passed (ParseState.length_bump found)
  exact ⟨⟨leads.ordered, Nat.le_trans behind leads.front_le, Node.laid_nil _ _ _⟩, by omega⟩

theorem Gathered.enterBump {next : Unit → Parse β} (gathered : Gathered limit start [] state)
    (found : state.peek? = some token)
    (second : Underway limit start [] state.bump → Meets limit goal (next ()) state.bump) :
    Meets limit goal (Parse.bump >>= next) state := by
  have moves : Meets limit (fun _ later => later = state.bump) Parse.bump state :=
    ⟨gathered.ordered.bump, rfl⟩
  refine moves.bind ?_
  rintro _ _ _ _ rfl
  exact second (gathered.bump found)

theorem Gathered.enterEat {mark : Punct} {next : Bool → Parse β}
    (gathered : Gathered limit start [] state)
    (eaten : Underway limit start [] state.bump → Meets limit goal (next true) state.bump)
    (kept : Meets limit goal (next false) state) : Meets limit goal (eat mark >>= next) state := by
  rcases eat_cases mark state with ⟨found, ate⟩ | ⟨_, left⟩
  · have moves : Meets limit (fun result later => result = true ∧ later = state.bump)
        (eat mark) state := by
      unfold Meets
      rw [ate]
      exact ⟨gathered.ordered.bump, rfl, rfl⟩
    refine moves.bind ?_
    rintro _ _ _ _ ⟨rfl, rfl⟩
    exact eaten (gathered.bump found)
  · exact meets_look left kept

theorem Underway.descend {node : Node} (under : Underway limit start [node] state) :
    Underway limit start node.children state :=
  ⟨⟨under.ordered, under.behind, under.laid.children⟩, under.begun⟩

theorem Underway.node {make : Nat → α} {node : Node} (under : Underway limit start seen state)
    (viewed : view (make state.previousStop) = [node])
    (spanned : node.span = ⟨start, state.previousStop⟩) (inside : node.children = seen) :
    Meets limit (fun result next => Node.Laid limit start next.previousStop (view result))
      (previousStop >>= fun stop => pure (make stop)) state := by
  refine meets_look rfl (meets_pure under.ordered ?_)
  rw [viewed]
  have laid := under.laid
  rw [← inside] at laid
  exact laid.enclose spanned under.begun under.ordered.inside

theorem meets_leaf {kind : α → Node} {result : α} (ordered : state.Ordered limit)
    (found : state.peek? = some token) (spanned : (kind result).span = state.span)
    (leaf : (kind result).children = []) :
    Meets limit (fun result next => Node.Laid limit state.front next.previousStop [kind result])
      (bump >>= fun _ => pure result) state := by
  refine (gathered_start ordered).enterBump found ?_
  intro under
  have laid := under.laid
  rw [← leaf] at laid
  exact meets_pure under.ordered
    (laid.enclose (spanned.trans (ParseState.span_of_peek found)) under.begun under.ordered.inside)

end Rules

/-! The steps from which the parser is built. -/

theorem meets_fail (message : String) (span : Span) (hint : Option String)
    (ordered : state.Ordered limit) :
    Meets limit goal (fail message span hint) state :=
  meets_look rfl (meets_throw _ ordered)

theorem tracks_fail (message : String) (span : Span) (hint : Option String) :
    Tracks limit view (fail message span hint) :=
  fun _ => meets_fail message span hint

theorem tracks_failExpecting (what : String) (hint : Option String) :
    Tracks limit view (failExpecting what hint) :=
  fun _ ordered => meets_look rfl (meets_throw _ ordered)

theorem tracks_failTooDeep : Tracks limit view failTooDeep :=
  fun _ ordered => meets_look rfl (meets_fail _ _ _ ordered)

theorem roams_peek : Roams limit peek? := fun _ ordered => ⟨ordered.leads, Node.laid_nil _ _ _⟩

theorem roams_span : Roams limit span := fun _ ordered => ⟨ordered.leads, Node.laid_nil _ _ _⟩

theorem roams_previousStop : Roams limit previousStop :=
  fun _ ordered => ⟨ordered.leads, Node.laid_nil _ _ _⟩

theorem roams_isAt (token : Token) : Roams limit (isAt token) :=
  fun _ ordered => ⟨ordered.leads, Node.laid_nil _ _ _⟩

theorem roams_modify {change : ParseState → ParseState}
    (leads : ∀ state : ParseState, state.Ordered limit → state.Leads limit (change state)) :
    Roams limit (modify change) :=
  fun state ordered => ⟨leads state ordered, Node.laid_nil _ _ _⟩

theorem roams_bump : Roams limit bump := roams_modify fun _ ordered => ordered.bump

theorem roams_eat (mark : Punct) : Roams limit (eat mark) :=
  (roams_isAt _).seq fun _ => roams_ite (roams_bump.seq fun _ => roams_pure _) (roams_pure _)

theorem roams_expect (mark : Punct) : Roams limit (expect mark) :=
  (roams_isAt _).seq fun _ => roams_ite
    (roams_span.seq fun _ => roams_bump.seq fun _ => roams_pure _) (tracks_failExpecting _ _)

theorem roams_expectKeyword (word : Keyword) : Roams limit (expectKeyword word) :=
  (roams_isAt _).seq fun _ => roams_ite roams_bump (tracks_failExpecting _ _)

theorem roams_expectIdent (what : String) (hint : Option String) :
    Roams limit (expectIdent what hint) := by
  refine roams_peek.seq fun next => ?_
  split
  · exact roams_span.seq fun _ => roams_bump.seq fun _ => roams_pure _
  · exact tracks_failExpecting _ _

theorem roams_expectString : Roams limit expectString := by
  refine roams_peek.seq fun next => ?_
  split
  · exact roams_bump.seq fun _ => roams_pure _
  · exact tracks_failExpecting _ _

theorem meets_repeatWith {step : Parse (Option α)}
    (inner : Tracks limit (fun found => found.toList.flatMap view) step) (fuel : Nat)
    (gathered : Gathered limit start seen state) :
    Meets limit (fun items next => Node.Laid limit start next.previousStop
      (seen ++ items.flatMap view)) (repeatWith step fuel) state := by
  induction fuel generalizing state seen with
  | zero => exact meets_pure gathered.ordered (by simpa using gathered.laid)
  | succ fuel ih =>
    refine gathered.add inner fun found later gathered => ?_
    cases found with
    | none => exact meets_pure gathered.ordered (by simpa using gathered.laid)
    | some item =>
      refine (ih gathered).bind fun items last _ leads laid => meets_pure leads.ordered ?_
      simpa using laid

theorem tracks_repeated {step : Parse (Option α)}
    (inner : Tracks limit (fun found => found.toList.flatMap view) step) :
    Tracks limit (fun items => items.flatMap view) (repeated step) :=
  fun _ ordered => meets_look rfl (meets_repeatWith inner _ (gathered_start ordered))

theorem meets_itemsWith {item : Parse α} (inner : Tracks limit view item) (fuel : Nat)
    (gathered : Gathered limit start seen state) :
    Meets limit (fun items next => Node.Laid limit start next.previousStop
      (seen ++ items.flatMap view)) (itemsWith item fuel) state := by
  induction fuel generalizing state seen with
  | zero => exact meets_pure gathered.ordered (by simpa using gathered.laid)
  | succ fuel ih =>
    refine gathered.skip (roams_eat _) fun closed later gathered => meets_ite ?_ ?_
    · exact meets_pure gathered.ordered (by simpa using gathered.laid)
    refine gathered.add inner fun first later gathered => gathered.skip (roams_eat _)
      fun more later gathered =>
      meets_ite ?_ ?_
    · refine (ih gathered).bind fun items last _ leads laid => meets_pure leads.ordered ?_
      simpa using laid
    · refine gathered.skip (roams_expect _) fun _ later gathered => meets_pure gathered.ordered ?_
      simpa using gathered.laid

theorem tracks_parenthesised {item : Parse α} (inner : Tracks limit view item) :
    Tracks limit (fun items => items.flatMap view) (parenthesised item) := by
  intro state ordered
  refine (gathered_start ordered).skip (roams_expect _) fun _ later gathered => meets_look rfl ?_
  exact meets_itemsWith inner _ gathered

end Parse

end Covenant
