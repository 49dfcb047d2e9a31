import Covenant.Proofs.Code.Derivation
import Covenant.Proofs.Lists
import Covenant.Proofs.Lowering.TypedBodies

/-!
What values are computed from along a path. The sources that are listed for a value cover those that
it comes from on any path, and the values that are derived from one cover those that are computed
from it on any path, also where local variables carry values around loops: neither search looks at
the order in which blocks run.
-/

namespace Covenant

/-- What a value is computed from on a path: the sources that it comes from, and the values on the
way, itself included. -/
structure Lineage where
  leaves : List Origin
  sites : List Site
deriving DecidableEq, Repr

structure Lineages where
  values : List (Site × Lineage)
  locals : List (LocalId × Lineage)
deriving DecidableEq, Repr

namespace Lineage

def empty : Lineage := ⟨[], []⟩

def leaf (origin : Origin) : Lineage := ⟨[origin], []⟩

def join (left right : Lineage) : Lineage :=
  ⟨left.leaves ++ right.leaves, left.sites ++ right.sites⟩

end Lineage

namespace Lineages

def valueAt (known : Lineages) (site : Site) : Lineage := (known.values.lookup site).getD .empty

def localAt (known : Lineages) (slot : LocalId) : Lineage := (known.locals.lookup slot).getD .empty

def addValue (known : Lineages) (site : Site) (lineage : Lineage) : Lineages :=
  { known with values := (site, ⟨lineage.leaves, site :: lineage.sites⟩) :: known.values }

def step (known : Lineages) (id : BlockId) : Instruction → Lineages
  | .const dest value _ => known.addValue ⟨id, dest⟩ (.leaf (.const value))
  | .env dest var => known.addValue ⟨id, dest⟩ (.leaf (.env var))
  | .loadLocal dest slot => known.addValue ⟨id, dest⟩ (known.localAt slot)
  | .storeLocal slot value =>
    { known with locals := (slot, known.valueAt ⟨id, value⟩) :: known.locals }
  | .loadField dest field _ => known.addValue ⟨id, dest⟩ (.leaf (.field field))
  | .binary dest _ _ lhs rhs =>
    known.addValue ⟨id, dest⟩ ((known.valueAt ⟨id, lhs⟩).join (known.valueAt ⟨id, rhs⟩))
  | .not dest operand => known.addValue ⟨id, dest⟩ (known.valueAt ⟨id, operand⟩)
  | .call (some dest) callee _ => known.addValue ⟨id, dest⟩ (.leaf (.call callee))
  | .call none _ _ => known
  | .externalCall dest _ _ _ => known.addValue ⟨id, dest⟩ (.leaf .external)
  | .storeField _ _ _ => known
  | .emit _ _ => known

end Lineages

namespace Function

def entryLineages (function : Function) : Lineages :=
  ⟨[], (List.range function.params.length).map fun slot => (slot, .leaf (.param slot))⟩

/-- What the values are computed from if blocks run one after another, from the entry on. -/
def lineages (function : Function) (blocks : List BlockId) : Lineages :=
  blocks.foldl
    (fun known id => (function.block? id).elim known fun block =>
      block.instructions.foldl (fun known instruction => known.step id instruction.node) known)
    function.entryLineages

end Function

structure Lineage.Fits (function : Function) (site : Site) (lineage : Lineage) : Prop where
  leaves : ∀ origin ∈ lineage.leaves, function.Carries origin site
  sites : ∀ earlier ∈ lineage.sites, function.Derives earlier site

structure Lineages.Sound (function : Function) (known : Lineages) : Prop where
  values : ∀ entry ∈ known.values, entry.2.Fits function entry.1
  locals : ∀ entry ∈ known.locals,
    (∃ stored ∈ function.storesTo entry.1, entry.2.Fits function stored) ∨
    entry.1 < function.params.length ∧ entry.2 = .leaf (.param entry.1)

namespace Lineage

variable {function : Function} {site input : Site} {lineage other : Lineage}

theorem Fits.empty (function : Function) (site : Site) : Lineage.empty.Fits function site :=
  ⟨nofun, nofun⟩

theorem Fits.leaf {origin : Origin} (source : function.sourceAt? site = some origin) :
    (Lineage.leaf origin).Fits function site :=
  ⟨fun _ listed => List.mem_singleton.mp listed ▸ .source source, nofun⟩

theorem Fits.join (one : lineage.Fits function site) (two : other.Fits function site) :
    (lineage.join other).Fits function site :=
  ⟨List.forall_mem_append.mpr ⟨one.leaves, two.leaves⟩, List.forall_mem_append.mpr
    ⟨one.sites, two.sites⟩⟩

theorem Fits.tail (fits : lineage.Fits function input) (feeds : function.Feeds input site) :
    lineage.Fits function site :=
  ⟨fun origin listed => .input feeds (fits.leaves origin listed),
    fun earlier listed => (fits.sites earlier listed).tail feeds⟩

end Lineage

namespace Lineages

variable {function : Function} {declared : Declarations} {types : List Ty} {known : Lineages}

namespace Sound

theorem entry (function : Function) : function.entryLineages.Sound function := by
  refine ⟨nofun, fun entry listed => ?_⟩
  obtain ⟨slot, inside, rfl⟩ := List.mem_map.mp listed
  exact .inr ⟨List.mem_range.mp inside, rfl⟩

theorem valueAt (sound : known.Sound function) (site : Site) :
    (known.valueAt site).Fits function site := by
  unfold Lineages.valueAt
  cases found : known.values.lookup site with
  | none => exact .empty function site
  | some lineage => exact sound.values _ (mem_of_lookup found)

theorem addValue (sound : known.Sound function) {site : Site} {lineage : Lineage}
    (fits : lineage.Fits function site) :
    (known.addValue site lineage).Sound function :=
  { sound with
    values := List.forall_mem_cons.mpr
      ⟨⟨fits.leaves, List.forall_mem_cons.mpr ⟨.refl, fits.sites⟩⟩, sound.values⟩ }

theorem localAt (sound : known.Sound function) {site : Site} {slot : LocalId}
    (loads : function.slotAt? site = some slot) :
    (known.localAt slot).Fits function site := by
  obtain ⟨inputs, source⟩ := Function.of_slotAt? loads
  unfold Lineages.localAt
  cases found : known.locals.lookup slot with
  | none => exact .empty function site
  | some lineage =>
    rcases sound.locals _ (mem_of_lookup found) with ⟨stored, listed, fits⟩ | ⟨inside, same⟩
    · exact fits.tail (show stored ∈ _ from inputs ▸ listed)
    · have leaf : lineage = .leaf (.param slot) := same
      exact leaf ▸ .leaf (by rw [source, if_pos inside])

/-- What is known fits after an instruction if it did before. -/
theorem step (sound : known.Sound function) (typed : function.Typed declared types) {id : BlockId}
    {instruction : Located Instruction} (listed : (id, instruction) ∈ function.instructions) :
    (known.step id instruction.node).Sound function := by
  obtain ⟨node, location⟩ := instruction
  have defined {dest : ValueId} (defines : node.dest? = some dest) :
      function.definitionAt? ⟨id, dest⟩ = some node := typed.definitionAt?_of_mem listed defines
  have leaf {dest : ValueId} {origin : Origin}
      (source : function.sourceAt? ⟨id, dest⟩ = some origin) :
      (known.addValue ⟨id, dest⟩ (.leaf origin)).Sound function := sound.addValue (.leaf source)
  have operand {value dest : ValueId} (feeds : ⟨id, value⟩ ∈ function.inputsOf ⟨id, dest⟩) :
      (known.valueAt ⟨id, value⟩).Fits function ⟨id, dest⟩ := (sound.valueAt ⟨id, value⟩).tail feeds
  cases node with
  | const dest value ty => exact leaf (by simp only [Function.sourceAt?, defined rfl])
  | env dest var => exact leaf (by simp only [Function.sourceAt?, defined rfl])
  | loadField dest field key => exact leaf (by simp only [Function.sourceAt?, defined rfl])
  | externalCall dest kind target amount =>
    exact leaf (by simp only [Function.sourceAt?, defined rfl])
  | call dest callee args =>
    cases dest with
    | none => exact sound
    | some dest => exact leaf (by simp only [Function.sourceAt?, defined rfl])
  | loadLocal dest slot =>
    exact sound.addValue (sound.localAt (by simp only [Function.slotAt?, defined rfl]))
  | storeLocal slot value =>
    have stored : ⟨id, value⟩ ∈ function.storesTo slot :=
      Function.mem_storesTo_iff.mpr ⟨location, listed⟩
    exact { sound with
      locals := List.forall_mem_cons.mpr
        ⟨.inl ⟨_, stored, sound.valueAt ⟨id, value⟩⟩, sound.locals⟩ }
  | binary dest op ty lhs rhs =>
    have inputs : function.inputsOf ⟨id, dest⟩ = [⟨id, lhs⟩, ⟨id, rhs⟩] := by
      simp only [Function.inputsOf, defined rfl]
    exact sound.addValue ((operand (by simp [inputs])).join (operand (by simp [inputs])))
  | not dest value =>
    have inputs : function.inputsOf ⟨id, dest⟩ = [⟨id, value⟩] := by
      simp only [Function.inputsOf, defined rfl]
    exact sound.addValue (operand (by simp [inputs]))
  | storeField field key value => exact sound
  | emit event args => exact sound

theorem block (sound : known.Sound function) (typed : function.Typed declared types) {id : BlockId}
    {instructions : List (Located Instruction)}
    (listed : ∀ instruction ∈ instructions, (id, instruction) ∈ function.instructions) :
    (instructions.foldl (fun known instruction => known.step id instruction.node) known).Sound
      function := by
  induction instructions generalizing known with
  | nil => exact sound
  | cons instruction rest ih =>
    obtain ⟨here, later⟩ := List.forall_mem_cons.mp listed
    exact ih (sound.step typed here) later

theorem lineages (typed : function.Typed declared types) (blocks : List BlockId) :
    (function.lineages blocks).Sound function := by
  unfold Function.lineages
  have begun := Sound.entry function
  generalize function.entryLineages = known at begun
  induction blocks generalizing known with
  | nil => exact begun
  | cons id rest ih =>
    rw [List.foldl_cons]
    refine ih _ ?_
    cases there : function.block? id with
    | none => exact begun
    | some block =>
      obtain rfl := typed.ids id block there
      exact begun.block typed fun instruction listed =>
        Function.mem_instructions (List.mem_of_getElem? there) listed

end Sound

end Lineages

namespace ContractSet

/-- On a path through a function, whatever blocks it goes through, the sources that are listed for a
value hold all that it comes from there, and a value that is computed from an earlier one is derived
from it. Both searches end, whatever value they start at, and what is derived from a value has all
its sources. -/
theorem origins_cover_lineages {text : String} {contract : Contract}
    (member : contract ∈ (ofText text).contracts) {function : Function}
    (listed : function ∈ contract.functions) :
    (∀ blocks, ∀ entry ∈ (function.lineages blocks).values,
      (∀ origin ∈ entry.2.leaves, origin ∈ function.origins entry.1) ∧
        ∀ earlier ∈ entry.2.sites, entry.1 ∈ function.derived earlier) ∧
    (∀ site,
      (∃ found, (∀ fuel, function.tracePatience ≤ fuel → function.trace? fuel ⟨[], [], []⟩ [site] =
        some found) ∧
        function.foundOrigins site = found.origins) ∧
      ∃ found,
        (∀ fuel, function.tracePatience ≤ fuel → function.spread? fuel ⟨[site], []⟩ = some found) ∧
        function.derived site = found.sites) ∧
    ∀ site other, other ∈ function.derived site → ∀ origin ∈ function.origins site,
      origin ∈ function.origins other := by
  obtain ⟨declared, code⟩ := typed_of_ofText member
  obtain ⟨types, typed⟩ := code.functions function listed
  refine ⟨fun blocks entry known => ?_, fun site => ⟨?_, ?_⟩,
    fun site other derived origin source => ?_⟩
  · have fits := (Lineages.Sound.lineages typed blocks).values entry known
    exact ⟨fun origin leaf => typed.mem_origins_iff.mpr (fits.leaves origin leaf),
      fun earlier before => typed.mem_derived_iff.mpr (fits.sites earlier before)⟩
  · obtain ⟨found, ends⟩ := typed.exists_trace? site
    refine ⟨found, fun fuel enough => Function.trace?_mono enough ends, ?_⟩
    rw [Function.foundOrigins, ends, Option.map_some, Option.getD_some]
  · obtain ⟨found, ends⟩ := typed.exists_spread? site
    refine ⟨found, fun fuel enough => Function.spread?_mono enough ends, ?_⟩
    rw [Function.derived, ends, Option.map_some, Option.getD_some]
  · have carries := typed.mem_origins_iff.mp source
    exact typed.mem_origins_iff.mpr (carries.of_derives (typed.mem_derived_iff.mp derived))

/-- What a loop sums up comes from the parameter on a path with a round of it, and the sources that
are listed tell so. -/
theorem origins_cover_lineages_of_loop :
    let text := "contract A \x7b total: u64 f(count: u64) \x7b let sum: u64 = 0 let i: u64 = 0 " ++
      "while i < count \x7b sum = sum + count i = i + 1 \x7d self.total = sum \x7d \x7d"
    ∃ contract ∈ (ofText text).contracts, ∃ function ∈ contract.functions,
      ∃ entry ∈ (function.lineages [0, 1, 2, 1, 3]).values, entry.1 = ⟨3, 11⟩ ∧
        (Origin.param 0 ∈ entry.2.leaves ∧ ⟨2, 7⟩ ∈ entry.2.sites) ∧
        Origin.param 0 ∈ function.origins ⟨3, 11⟩ ∧ ⟨3, 11⟩ ∈ function.derived ⟨2, 7⟩ := by
  intro text
  have facts : ∃ contract ∈ (ofText text).contracts, ∃ function ∈ contract.functions,
      ∃ entry ∈ (function.lineages [0, 1, 2, 1, 3]).values, entry.1 = ⟨3, 11⟩ ∧
        Origin.param 0 ∈ entry.2.leaves ∧ ⟨2, 7⟩ ∈ entry.2.sites := by
    decide +kernel
  obtain ⟨contract, member, function, listed, ⟨site, lineage⟩, known, rfl, comes, before⟩ := facts
  have covered := (origins_cover_lineages member listed).1 _ _ known
  exact ⟨contract, member, function, listed, _, known, rfl, ⟨comes, before⟩, covered.1 _ comes,
    covered.2 _ before⟩

end ContractSet

end Covenant
