import Covenant.Code.Provenance
import Covenant.Proofs.Code.Search
import Covenant.Proofs.Code.Typing
import Mathlib.Data.List.Nodup

/-!
The sources that a function lists for a value are those that the value can come from, through
however many other values. The search for them passes over loads of a local variable that it has met
before, and still misses nothing: what such a load gives is what the first one led to.
-/

namespace Covenant

namespace Function

inductive Carries (function : Function) (origin : Origin) : Site → Prop
  | source {site : Site} : function.sourceAt? site = some origin → Carries function origin site
  | input {site input : Site} : input ∈ function.inputsOf site → Carries function origin input →
      Carries function origin site

def sites (function : Function) : List Site :=
  function.instructions.filterMap fun (block, instruction) =>
    instruction.node.dest?.map fun value => ⟨block, value⟩

variable {function : Function} {declared : Declarations} {types : List Ty} {origin : Origin}

theorem length_sites_le (function : Function) :
    function.sites.length ≤ function.instructions.length :=
  List.length_filterMap_le _ _

theorem mem_instructions {block : BasicBlock} (member : block ∈ function.blocks)
    {instruction : Located Instruction} (listed : instruction ∈ block.instructions) :
    (block.id, instruction) ∈ function.instructions :=
  List.mem_flatMap.mpr ⟨block, member, List.mem_map.mpr ⟨instruction, listed, rfl⟩⟩

theorem exists_of_mem_instructions {id : BlockId} {instruction : Located Instruction}
    (listed : (id, instruction) ∈ function.instructions) :
    ∃ block ∈ function.blocks, block.id = id ∧ instruction ∈ block.instructions := by
  obtain ⟨block, member, inside⟩ := List.mem_flatMap.mp listed
  obtain ⟨_, there, same⟩ := List.mem_map.mp inside
  obtain ⟨rfl, rfl⟩ := Prod.mk.inj same
  exact ⟨block, member, rfl, there⟩

theorem mem_storesTo_iff {slot : LocalId} {site : Site} : site ∈ function.storesTo slot ↔
    ∃ location, (site.block, ⟨.storeLocal slot site.value, location⟩) ∈ function.instructions := by
  constructor
  · intro listed
    obtain ⟨⟨id, instruction⟩, placed, stores⟩ := List.mem_filterMap.mp listed
    obtain ⟨node, location⟩ := instruction
    dsimp only at stores
    split at stores
    · split at stores
      · rename_i same
        obtain rfl := Option.some.inj stores
        obtain rfl := eq_of_beq same
        exact ⟨location, placed⟩
      · simp at stores
    · simp at stores
  · rintro ⟨location, placed⟩
    exact List.mem_filterMap.mpr ⟨_, placed, by simp⟩

namespace Typed

theorem mem_instructions_of_definitionAt? (typed : function.Typed declared types) {site : Site}
    {node : Instruction} (found : function.definitionAt? site = some node) :
    ∃ location, (site.block, ⟨node, location⟩) ∈ function.instructions ∧
      node.dest? = some site.value := by
  obtain ⟨id, value⟩ := site
  obtain ⟨⟨_, location⟩, defined, rfl⟩ := Option.map_eq_some_iff.mp found
  obtain ⟨block, there, defined⟩ := Option.bind_eq_some_iff.mp defined
  obtain rfl : block.id = id := typed.ids _ block there
  have defines := List.find?_some defined
  exact ⟨location, mem_instructions (List.mem_of_getElem? there)
    (List.mem_of_find?_eq_some defined), eq_of_beq defines⟩

theorem operand_mem_sites (typed : function.Typed declared types) {id : BlockId}
    {instruction : Located Instruction} (listed : (id, instruction) ∈ function.instructions)
    {value : ValueId} (used : value ∈ instruction.node.operands) :
    ⟨id, value⟩ ∈ function.sites := by
  obtain ⟨block, member, rfl, inside⟩ := exists_of_mem_instructions listed
  obtain ⟨index, found⟩ := List.mem_iff_getElem?.mp inside
  obtain ⟨earlier, before, defines⟩ :=
    List.mem_filterMap.mp (typed.reads block member index instruction found value used)
  exact List.mem_filterMap.mpr
    ⟨_, mem_instructions member (List.mem_of_mem_take before), by simp [defines]⟩

theorem input_mem_sites (typed : function.Typed declared types) {site input : Site}
    (listed : input ∈ function.inputsOf site) : input ∈ function.sites := by
  unfold inputsOf at listed
  split at listed
  · obtain ⟨location, stores⟩ := mem_storesTo_iff.mp listed
    exact typed.operand_mem_sites stores (by simp [Instruction.operands])
  · rename_i dest op ty lhs rhs found
    obtain ⟨location, placed, _⟩ := typed.mem_instructions_of_definitionAt? found
    rcases List.mem_pair.mp listed with rfl | rfl
    · exact typed.operand_mem_sites placed (by simp [Instruction.operands])
    · exact typed.operand_mem_sites placed (by simp [Instruction.operands])
  · rename_i dest operand found
    obtain ⟨location, placed, _⟩ := typed.mem_instructions_of_definitionAt? found
    obtain rfl := List.mem_singleton.mp listed
    exact typed.operand_mem_sites placed (by simp [Instruction.operands])
  · simp at listed

theorem definitionAt?_eq (typed : function.Typed declared types) {block : BasicBlock}
    (there : function.block? block.id = some block) {instruction : Located Instruction}
    {done rest : List (Located Instruction)}
    (split : block.instructions = done ++ instruction :: rest) {dest : ValueId}
    (defines : instruction.node.dest? = some dest) :
    function.definitionAt? ⟨block.id, dest⟩ = some instruction.node := by
  have member : block ∈ function.blocks := List.mem_of_getElem? there
  have once : (definedBy block.instructions).Nodup :=
    (List.nodup_flatMap.mp typed.once).1 block member
  have fresh : ∀ earlier ∈ done, (earlier.node.dest? == some dest) = false := by
    intro earlier before
    rw [beq_eq_false_iff_ne]
    intro same
    rw [split, definedBy_append] at once
    have here : dest ∈ definedBy (instruction :: rest) :=
      List.mem_filterMap.mpr ⟨_, List.mem_cons_self, defines⟩
    exact (List.nodup_append.mp once).2.2 dest (List.mem_filterMap.mpr ⟨earlier, before, same⟩)
      dest here rfl
  have found : block.definition? dest = some instruction := by
    unfold BasicBlock.definition?
    rw [split, List.find?_append,
      List.find?_eq_none.mpr fun earlier before => by simp [fresh earlier before]]
    simp [defines]
  simp only [definitionAt?, there, Option.bind_some, found, Option.map_some]

end Typed

/-! The search for sources. -/

theorem mem_origins {site : Site} :
    origin ∈ function.origins site ↔ origin ∈ function.foundOrigins site := by
  simp only [origins, List.mem_mergeSort, List.mem_eraseDups]

theorem of_slotAt? {site : Site} {slot : LocalId} (loads : function.slotAt? site = some slot) :
    function.inputsOf site = function.storesTo slot ∧
      function.sourceAt? site = if slot < function.params.length then some (.param slot)
        else none := by
  unfold slotAt? at loads
  split at loads
  · rename_i found
    obtain rfl := Option.some.inj loads
    simp only [inputsOf, sourceAt?, found, true_and]
  · simp at loads

structure Accounts (function : Function) (root : Site) (found : Tracing) (stack : List Site) :
    Prop where
  begun : root ∈ found.sites ∨ root ∈ stack
  back : ∀ site ∈ stack, ∀ origin, function.Carries origin site → function.Carries origin root
  carried : ∀ origin ∈ found.origins, function.Carries origin root
  sources : ∀ site ∈ found.sites, ∀ origin, function.sourceAt? site = some origin →
    origin ∈ found.origins
  inputs : ∀ site ∈ found.sites, ∀ input ∈ function.inputsOf site, input ∈ found.sites ∨
    input ∈ stack
  slots : ∀ slot ∈ found.slots, ∃ site ∈ found.sites, function.slotAt? site = some slot

namespace Accounts

variable {root site : Site} {found : Tracing} {stack : List Site}

theorem start (function : Function) (root : Site) : function.Accounts root ⟨[], [], []⟩ [root] where
  begun := .inr List.mem_cons_self
  back := fun _ listed _ carries => List.mem_singleton.mp listed ▸ carries
  carried := nofun
  sources := nofun
  inputs := nofun
  slots := nofun

theorem pass (accounts : function.Accounts root found (site :: stack)) (met : site ∈ found.sites) :
    function.Accounts root found stack :=
  have still {other : Site} (listed : other ∈ found.sites ∨ other ∈ site :: stack) :
      other ∈ found.sites ∨ other ∈ stack := by
    rcases listed with before | listed
    · exact .inl before
    · rcases List.mem_cons.mp listed with rfl | waiting
      · exact .inl met
      · exact .inr waiting
  { accounts with
    begun := still accounts.begun
    back := (List.forall_mem_cons.mp accounts.back).2
    inputs := fun other member input listed => still (accounts.inputs other member input listed) }

theorem passLoad (accounts : function.Accounts root found (site :: stack)) {slot : LocalId}
    (loads : function.slotAt? site = some slot) (met : slot ∈ found.slots) :
    function.Accounts root { found with sites := site :: found.sites } stack := by
  obtain ⟨earlier, listed, also⟩ := accounts.slots slot met
  have sources : function.sourceAt? site = function.sourceAt? earlier := by
    rw [(of_slotAt? loads).2, (of_slotAt? also).2]
  have inputs : function.inputsOf site = function.inputsOf earlier := by
    rw [(of_slotAt? loads).1, (of_slotAt? also).1]
  have moved {other : Site} (there : other ∈ found.sites ∨ other ∈ site :: stack) :
      other ∈ site :: found.sites ∨ other ∈ stack := by
    simp only [List.mem_cons] at there ⊢
    tauto
  refine ⟨moved accounts.begun, (List.forall_mem_cons.mp accounts.back).2,
    accounts.carried, ?_, ?_, ?_⟩
  · exact List.forall_mem_cons.mpr
      ⟨fun origin source => accounts.sources earlier listed origin (sources ▸ source),
        accounts.sources⟩
  · exact List.forall_mem_cons.mpr
      ⟨fun input member => moved (accounts.inputs earlier listed input (inputs ▸ member)),
        fun other member input feeds => moved (accounts.inputs other member input feeds)⟩
  · intro slot member
    obtain ⟨other, before, reads⟩ := accounts.slots slot member
    exact ⟨other, List.mem_cons_of_mem site before, reads⟩

/-- A value is met: its source is found, and what it is computed from is put on the stack. -/
theorem meet (accounts : function.Accounts root found (site :: stack)) :
    function.Accounts root
      { sites := site :: found.sites
        slots := (function.slotAt? site).toList ++ found.slots
        origins := (function.sourceAt? site).toList ++ found.origins }
      ((function.inputsOf site).reverse ++ stack) := by
  obtain ⟨here, later⟩ := List.forall_mem_cons.mp accounts.back
  have moved {other : Site} (there : other ∈ found.sites ∨ other ∈ site :: stack) :
      other ∈ site :: found.sites ∨ other ∈ (function.inputsOf site).reverse ++ stack := by
    simp only [List.mem_cons, List.mem_append] at there ⊢
    tauto
  refine ⟨moved accounts.begun, List.forall_mem_append.mpr ⟨?_, later⟩, List.forall_mem_append.mpr
    ⟨?_, accounts.carried⟩, List.forall_mem_cons.mpr ⟨?_, ?_⟩, List.forall_mem_cons.mpr ⟨?_, ?_⟩,
    List.forall_mem_append.mpr ⟨?_, ?_⟩⟩
  · exact fun input listed origin carries =>
      here origin (.input (List.mem_reverse.mp listed) carries)
  · exact fun origin source => here origin (.source (Option.mem_toList.mp source))
  · exact fun origin source => List.mem_append_left _ (Option.mem_toList.mpr source)
  · exact fun other member origin source =>
      List.mem_append_right _ (accounts.sources other member origin source)
  · exact fun input listed => .inr (List.mem_append_left _ (List.mem_reverse.mpr listed))
  · exact fun other member input listed => moved (accounts.inputs other member input listed)
  · exact fun slot loads => ⟨site, List.mem_cons_self, Option.mem_toList.mp loads⟩
  · intro slot member
    obtain ⟨other, before, reads⟩ := accounts.slots slot member
    exact ⟨other, List.mem_cons_of_mem site before, reads⟩

end Accounts

/-- What a search accounts for at its start, it accounts for at its end. -/
theorem Accounts.of_trace? {root : Site} {fuel : Nat} {found result : Tracing} {stack : List Site}
    (accounts : function.Accounts root found stack)
    (ends : function.trace? fuel found stack = some result) :
    function.Accounts root result [] := by
  induction fuel generalizing found stack with
  | zero =>
    cases stack with
    | nil => exact Option.some.inj ends ▸ accounts
    | cons site rest => simp [trace?] at ends
  | succ fuel ih =>
    cases stack with
    | nil => exact Option.some.inj ends ▸ accounts
    | cons site rest =>
      unfold trace? at ends
      split at ends
      · rename_i met
        exact ih (accounts.pass (List.contains_iff_mem.mp met)) ends
      · split at ends
        · rename_i met
          obtain ⟨slot, loads, met⟩ := (Option.any_eq_true _ _).mp met
          exact ih (accounts.passLoad loads (List.contains_iff_mem.mp met)) ends
        · exact ih accounts.meet ends

theorem Accounts.mem_origins {root : Site} {found : Tracing}
    (accounts : function.Accounts root found []) {site : Site}
    (carries : function.Carries origin site) (met : site ∈ found.sites) :
    origin ∈ found.origins := by
  induction carries with
  | source here => exact accounts.sources _ met _ here
  | input listed _ ih => exact ih ((accounts.inputs _ met _ listed).resolve_right List.not_mem_nil)

theorem trace?_mono {fuel more : Nat} (enough : fuel ≤ more) {found result : Tracing}
    {stack : List Site} (ends : function.trace? fuel found stack = some result) :
    function.trace? more found stack = some result := by
  induction fuel generalizing more found stack with
  | zero =>
    cases stack with
    | nil => cases more <;> exact ends
    | cons site rest => simp [trace?] at ends
  | succ fuel ih =>
    obtain ⟨more, rfl⟩ : ∃ less, more = less + 1 := ⟨more - 1, by omega⟩
    cases stack with
    | nil => exact ends
    | cons site rest =>
      have further := Nat.le_of_succ_le_succ enough
      unfold trace? at ends ⊢
      split at ends
      · rename_i met
        rw [if_pos met]
        exact ih further ends
      · rename_i unmet
        rw [if_neg unmet]
        split at ends
        · rename_i loaded
          rw [if_pos loaded]
          exact ih further ends
        · rename_i fresh
          rw [if_neg fresh]
          exact ih further ends

theorem length_inputsOf_le (function : Function) (site : Site) :
    (function.inputsOf site).length ≤ function.instructions.length + 2 := by
  unfold inputsOf
  split
  · exact Nat.le_trans (List.length_filterMap_le _ _) (Nat.le_add_right _ _)
  · simp
  · simp
  · simp

namespace Typed

/-- A search ends: each step either takes a value off the stack or meets a new one, and a value is
met once. -/
theorem trace?_isSome (typed : function.Typed declared types) {root : Site} {fuel : Nat}
    {found : Tracing} {stack : List Site} (inside : ∀ site ∈ stack, site ∈ root :: function.sites)
    (enough : stack.length + Reach.unmetCost (fun site => (function.inputsOf site).length)
      (root :: function.sites)
      found.sites ≤ fuel) : ∃ result, function.trace? fuel found stack = some result := by
  induction fuel generalizing found stack with
  | zero =>
    obtain rfl : stack = [] := List.eq_nil_of_length_eq_zero (by omega)
    exact ⟨found, rfl⟩
  | succ fuel ih =>
    cases stack with
    | nil => exact ⟨found, rfl⟩
    | cons site rest =>
      obtain ⟨here, later⟩ := List.forall_mem_cons.mp inside
      rw [List.length_cons] at enough
      unfold trace?
      split
      · exact ih later (by omega)
      · rename_i unmet
        have cost := Reach.unmetCost_cons_le (fun site => (function.inputsOf site).length) here
          (show site ∉ found.sites by simpa using unmet)
        split
        · exact ih later (by dsimp only; omega)
        · refine ih (List.forall_mem_append.mpr ⟨fun input listed => ?_, later⟩)
            (by simp only [List.length_append, List.length_reverse]; omega)
          exact List.mem_cons_of_mem root (typed.input_mem_sites (List.mem_reverse.mp listed))

theorem exists_trace? (typed : function.Typed declared types) (site : Site) :
    ∃ found, function.trace? function.tracePatience ⟨[], [], []⟩ [site] = some found := by
  have inside : ∀ other ∈ [site], other ∈ site :: function.sites := by simp
  refine typed.trace?_isSome inside ?_
  have cost : Reach.unmetCost (fun other => (function.inputsOf other).length)
      (site :: function.sites) [] ≤
      (site :: function.sites).length * (function.instructions.length + 2) :=
    Reach.unmetCost_le (fun other _ => function.length_inputsOf_le other) []
  have fewer : (site :: function.sites).length ≤ function.instructions.length + 1 :=
    Nat.succ_le_succ function.length_sites_le
  have most := Nat.mul_le_mul_right (function.instructions.length + 2) fewer
  have square : (function.instructions.length + 2) * (function.instructions.length + 2) =
      (function.instructions.length + 1) * (function.instructions.length + 2) +
      (function.instructions.length + 2) :=
    Nat.succ_mul _ _
  simp only [tracePatience, List.length_singleton]
  omega

theorem mem_origins_iff (typed : function.Typed declared types) {site : Site} :
    origin ∈ function.origins site ↔ function.Carries origin site := by
  obtain ⟨found, ends⟩ := typed.exists_trace? site
  have accounts := (Accounts.start function site).of_trace? ends
  simp only [mem_origins, foundOrigins, ends, Option.map_some, Option.getD_some]
  exact ⟨accounts.carried origin,
    fun carries => accounts.mem_origins carries (accounts.begun.resolve_right List.not_mem_nil)⟩

end Typed

end Function

end Covenant
