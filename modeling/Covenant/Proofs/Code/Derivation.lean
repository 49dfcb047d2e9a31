import Covenant.Proofs.Code.Provenance
import Mathlib.Data.List.Perm.Subperm

/-!
What is derived from a value. The search goes through the instructions in their order again and
again, and gives exactly the values that are computed from it through any number of others. It ends:
each time but the last it finds a value or a local variable, and finds none of them twice.
-/

namespace Covenant

namespace Function

def Feeds (function : Function) (input site : Site) : Prop := input ∈ function.inputsOf site

abbrev Derives (function : Function) (earlier later : Site) : Prop :=
  Relation.ReflTransGen function.Feeds earlier later

def storedSlots (function : Function) : List LocalId :=
  function.instructions.filterMap fun (_, instruction) =>
    match instruction.node with
    | .storeLocal slot _ => some slot
    | _ => none

variable {function : Function} {declared : Declarations} {types : List Ty} {origin : Origin}

theorem Carries.of_derives {earlier later : Site} (carries : function.Carries origin earlier)
    (derives : function.Derives earlier later) : function.Carries origin later := by
  induction derives with
  | refl => exact carries
  | tail _ feeds ih => exact .input feeds ih

theorem mem_storedSlots {slot : LocalId} {site : Site} (stored : site ∈ function.storesTo slot) :
    slot ∈ function.storedSlots := by
  obtain ⟨location, placed⟩ := mem_storesTo_iff.mp stored
  exact List.mem_filterMap.mpr ⟨_, placed, rfl⟩

namespace Typed

theorem definitionAt?_of_mem (typed : function.Typed declared types) {id : BlockId}
    {instruction : Located Instruction} (listed : (id, instruction) ∈ function.instructions)
    {dest : ValueId} (defines : instruction.node.dest? = some dest) :
    function.definitionAt? ⟨id, dest⟩ = some instruction.node := by
  obtain ⟨block, member, rfl, there⟩ := exists_of_mem_instructions listed
  obtain ⟨index, found⟩ := List.mem_iff_getElem?.mp member
  obtain rfl := typed.ids index block found
  obtain ⟨done, rest, split⟩ := List.append_of_mem there
  exact typed.definitionAt?_eq found split defines

theorem mem_sites_of_feeds (typed : function.Typed declared types) {input site : Site}
    (feeds : function.Feeds input site) :
    site ∈ function.sites := by
  unfold Feeds inputsOf at feeds
  cases found : function.definitionAt? site with
  | none => simp [found] at feeds
  | some node =>
    obtain ⟨location, placed, defines⟩ := typed.mem_instructions_of_definitionAt? found
    exact List.mem_filterMap.mpr ⟨_, placed, by simp [defines]⟩

theorem mem_sites_of_derives (typed : function.Typed declared types) {earlier later : Site}
    (derives : function.Derives earlier later) : later ∈ earlier :: function.sites := by
  cases derives with
  | refl => exact List.mem_cons_self
  | tail _ feeds => exact List.mem_cons_of_mem _ (typed.mem_sites_of_feeds feeds)

end Typed

end Function

namespace Spreading

structure Grows (found later : Spreading) : Prop where
  sites : found.sites <:+ later.sites
  slots : found.slots <:+ later.slots

namespace Grows

variable {first second third : Spreading}

theorem refl (found : Spreading) : found.Grows found := ⟨List.suffix_refl _, List.suffix_refl _⟩

theorem trans (one : first.Grows second) (two : second.Grows third) : first.Grows third :=
  ⟨one.sites.trans two.sites, one.slots.trans two.slots⟩

theorem size_le (grows : first.Grows second) :
    first.sites.length + first.slots.length ≤ second.sites.length + second.slots.length :=
  Nat.add_le_add grows.sites.length_le grows.slots.length_le

theorem eq_of_size_le (grows : first.Grows second)
    (most : second.sites.length + second.slots.length ≤ first.sites.length + first.slots.length) :
    second = first := by
  have sites := grows.sites.length_le
  have slots := grows.slots.length_le
  obtain ⟨sitesFound, slotsFound⟩ := second
  obtain rfl : first.sites = sitesFound := grows.sites.eq_of_length (by dsimp only at *; omega)
  obtain rfl : first.slots = slotsFound := grows.slots.eq_of_length (by dsimp only at *; omega)
  rfl

end Grows

variable {found : Spreading}

theorem grows_addSite (found : Spreading) (site : Site) : found.Grows (found.addSite site) := by
  unfold addSite
  split
  · exact .refl found
  · exact ⟨List.suffix_cons site _, List.suffix_refl _⟩

theorem grows_addSlot (found : Spreading) (slot : LocalId) : found.Grows (found.addSlot slot) := by
  unfold addSlot
  split
  · exact .refl found
  · exact ⟨List.suffix_refl _, List.suffix_cons slot _⟩

theorem mem_addSite (found : Spreading) (site : Site) : site ∈ (found.addSite site).sites := by
  unfold addSite
  split
  · rename_i known
    exact List.contains_iff_mem.mp known
  · exact List.mem_cons_self

theorem mem_addSlot (found : Spreading) (slot : LocalId) : slot ∈ (found.addSlot slot).slots := by
  unfold addSlot
  split
  · rename_i known
    exact List.contains_iff_mem.mp known
  · exact List.mem_cons_self

theorem grows_pass (found : Spreading) (entry : BlockId × Located Instruction) :
    found.Grows (found.pass entry) := by
  unfold pass
  split
  · split
    · exact grows_addSite found _
    · exact .refl found
  · split
    · exact grows_addSite found _
    · exact .refl found
  · split
    · exact grows_addSite found _
    · exact .refl found
  · split
    · exact grows_addSlot found _
    · exact .refl found
  · exact .refl found

theorem grows_foldl (entries : List (BlockId × Located Instruction)) (found : Spreading) :
    found.Grows (entries.foldl pass found) := by
  induction entries generalizing found with
  | nil => exact .refl found
  | cons entry rest ih => exact (grows_pass found entry).trans (ih _)

theorem pass_eq_of_foldl {entries : List (BlockId × Located Instruction)}
    (settled : entries.foldl pass found = found) :
    ∀ entry ∈ entries, found.pass entry = found := by
  induction entries with
  | nil => nofun
  | cons entry rest ih =>
    rw [List.foldl_cons] at settled
    have later := (grows_foldl rest (found.pass entry)).size_le
    rw [settled] at later
    have here : found.pass entry = found := (grows_pass found entry).eq_of_size_le later
    rw [here] at settled
    exact List.forall_mem_cons.mpr ⟨here, ih settled⟩

structure Sound (function : Function) (root : Site) (found : Spreading) : Prop where
  sites : ∀ site ∈ found.sites, function.Derives root site
  slots : ∀ slot ∈ found.slots, ∃ stored ∈ function.storesTo slot, function.Derives root stored
  distinctSites : found.sites.Nodup
  distinctSlots : found.slots.Nodup

namespace Sound

variable {function : Function} {declared : Declarations} {types : List Ty} {root : Site}

theorem start (function : Function) (root : Site) : Sound function root ⟨[root], []⟩ where
  sites := fun _ listed => List.mem_singleton.mp listed ▸ .refl
  slots := nofun
  distinctSites := List.nodup_singleton root
  distinctSlots := List.nodup_nil

theorem addSite (sound : found.Sound function root) {site : Site}
    (derives : function.Derives root site) :
    (found.addSite site).Sound function root := by
  unfold Spreading.addSite
  split
  · exact sound
  · rename_i unknown
    exact { sound with
      sites := List.forall_mem_cons.mpr ⟨derives, sound.sites⟩
      distinctSites := List.nodup_cons.mpr ⟨by simpa using unknown, sound.distinctSites⟩ }

theorem addSlot (sound : found.Sound function root) {slot : LocalId} {site : Site}
    (stored : site ∈ function.storesTo slot) (derives : function.Derives root site) :
    (found.addSlot slot).Sound function root := by
  unfold Spreading.addSlot
  split
  · exact sound
  · rename_i unknown
    exact { sound with
      slots := List.forall_mem_cons.mpr ⟨⟨site, stored, derives⟩, sound.slots⟩
      distinctSlots := List.nodup_cons.mpr ⟨by simpa using unknown, sound.distinctSlots⟩ }

/-- Going past an instruction, only values that are derived are found. -/
theorem pass (sound : found.Sound function root) (typed : function.Typed declared types)
    {entry : BlockId × Located Instruction} (listed : entry ∈ function.instructions) :
    (found.pass entry).Sound function root := by
  obtain ⟨id, node, location⟩ := entry
  have defined {dest : ValueId} (defines : node.dest? = some dest) :
      function.definitionAt? ⟨id, dest⟩ = some node := typed.definitionAt?_of_mem listed defines
  have step {input dest : ValueId} (known : ⟨id, input⟩ ∈ found.sites)
      (feeds : function.Feeds ⟨id, input⟩ ⟨id, dest⟩) :
      (found.addSite ⟨id, dest⟩).Sound function root :=
    sound.addSite ((sound.sites _ known).tail feeds)
  cases node with
  | binary dest op ty lhs rhs =>
    have inputs : function.inputsOf ⟨id, dest⟩ = [⟨id, lhs⟩, ⟨id, rhs⟩] := by
      simp only [Function.inputsOf, defined rfl]
    simp only [Spreading.pass, Bool.or_eq_true, List.contains_iff_mem]
    split
    · rename_i known
      rcases known with known | known
      · exact step known (show _ ∈ _ by simp [inputs])
      · exact step known (show _ ∈ _ by simp [inputs])
    · exact sound
  | not dest operand =>
    have inputs : function.inputsOf ⟨id, dest⟩ = [⟨id, operand⟩] := by
      simp only [Function.inputsOf, defined rfl]
    simp only [Spreading.pass, List.contains_iff_mem]
    split
    · rename_i known
      exact step known (show _ ∈ _ by simp [inputs])
    · exact sound
  | loadLocal dest slot =>
    have inputs : function.inputsOf ⟨id, dest⟩ = function.storesTo slot := by
      simp only [Function.inputsOf, defined rfl]
    simp only [Spreading.pass, List.contains_iff_mem]
    split
    · rename_i known
      obtain ⟨stored, listed, derives⟩ := sound.slots slot known
      exact sound.addSite (derives.tail (show stored ∈ _ by rwa [inputs]))
    · exact sound
  | storeLocal slot value =>
    simp only [Spreading.pass, List.contains_iff_mem]
    split
    · rename_i known
      exact sound.addSlot (Function.mem_storesTo_iff.mpr ⟨location, listed⟩) (sound.sites _ known)
    · exact sound
  | _ => exact sound

theorem foldl (typed : function.Typed declared types)
    {entries : List (BlockId × Located Instruction)}
    (listed : ∀ entry ∈ entries, entry ∈ function.instructions)
    (sound : found.Sound function root) :
    (entries.foldl Spreading.pass found).Sound function root := by
  induction entries generalizing found with
  | nil => exact sound
  | cons entry rest ih =>
    obtain ⟨here, later⟩ := List.forall_mem_cons.mp listed
    exact ih later (sound.pass typed here)

theorem size_le (sound : found.Sound function root) (typed : function.Typed declared types) :
    found.sites.length + found.slots.length ≤ 2 * function.instructions.length + 1 := by
  have sites : found.sites.length ≤ (root :: function.sites).length :=
    (sound.distinctSites.subperm fun site member =>
      typed.mem_sites_of_derives (sound.sites site member)).length_le
  have slots : found.slots.length ≤ function.storedSlots.length := by
    refine (sound.distinctSlots.subperm fun slot member => ?_).length_le
    obtain ⟨stored, listed, _⟩ := sound.slots slot member
    exact Function.mem_storedSlots listed
  have few := function.length_sites_le
  have fewer : function.storedSlots.length ≤ function.instructions.length :=
    List.length_filterMap_le _ _
  rw [List.length_cons] at sites
  omega

end Sound

end Spreading

namespace Function

variable {function : Function} {declared : Declarations} {types : List Ty}

/-- What is derived in one step from what is found is found, where going past all instructions finds
nothing more. -/
theorem Typed.mem_of_feeds (typed : function.Typed declared types) {found : Spreading}
    (settled : function.instructions.foldl Spreading.pass found = found) {site other : Site}
    (known : site ∈ found.sites) (feeds : function.Feeds site other) : other ∈ found.sites := by
  have still := Spreading.pass_eq_of_foldl settled
  unfold Feeds inputsOf at feeds
  split at feeds
  · rename_i dest slot defined
    obtain ⟨location, placed, defines⟩ := typed.mem_instructions_of_definitionAt? defined
    obtain ⟨_, stores⟩ := mem_storesTo_iff.mp feeds
    have slots : slot ∈ found.slots := by
      have same := still _ stores
      simp only [Spreading.pass, List.contains_iff_mem.mpr known, if_true] at same
      exact same ▸ found.mem_addSlot slot
    have same := still _ placed
    obtain rfl := Option.some.inj defines
    simp only [Spreading.pass, List.contains_iff_mem.mpr slots, if_true] at same
    exact same ▸ found.mem_addSite _
  · rename_i dest op ty lhs rhs defined
    obtain ⟨location, placed, defines⟩ := typed.mem_instructions_of_definitionAt? defined
    have same := still _ placed
    obtain rfl := Option.some.inj defines
    have uses :
        (found.sites.contains ⟨other.block, lhs⟩ || found.sites.contains ⟨other.block, rhs⟩) =
          true := by
      rcases List.mem_pair.mp feeds with rfl | rfl <;> simp [known]
    simp only [Spreading.pass, uses, if_true] at same
    exact same ▸ found.mem_addSite _
  · rename_i dest operand defined
    obtain ⟨location, placed, defines⟩ := typed.mem_instructions_of_definitionAt? defined
    have same := still _ placed
    obtain rfl := Option.some.inj defines
    obtain rfl := List.mem_singleton.mp feeds
    simp only [Spreading.pass, List.contains_iff_mem.mpr known, if_true] at same
    exact same ▸ found.mem_addSite _
  · simp at feeds

theorem Typed.spread?_isSome (typed : function.Typed declared types) {root : Site} {fuel : Nat}
    {found : Spreading} (sound : found.Sound function root)
    (enough : 2 * function.instructions.length + 1 < found.sites.length +
      found.slots.length + fuel) :
    ∃ result, function.spread? fuel found = some result := by
  induction fuel generalizing found with
  | zero =>
    have := sound.size_le typed
    omega
  | succ fuel ih =>
    simp only [spread?]
    split
    · exact ⟨found, rfl⟩
    · rename_i changed
      have grows := Spreading.grows_foldl function.instructions found
      have more : found.sites.length + found.slots.length <
          (function.instructions.foldl Spreading.pass found).sites.length +
            (function.instructions.foldl Spreading.pass found).slots.length := by
        by_contra few
        exact changed (by simp [grows.eq_of_size_le (by omega)])
      exact ih (.foldl typed (fun _ listed => listed) sound) (by omega)

theorem Typed.of_spread? (typed : function.Typed declared types) {root : Site} {fuel : Nat}
    {found result : Spreading} (sound : found.Sound function root)
    (ends : function.spread? fuel found = some result) :
    result.Sound function root ∧ found.Grows result ∧
      function.instructions.foldl Spreading.pass result = result := by
  induction fuel generalizing found with
  | zero => simp [spread?] at ends
  | succ fuel ih =>
    simp only [spread?] at ends
    split at ends
    · rename_i same
      obtain rfl := Option.some.inj ends
      exact ⟨sound, .refl _, eq_of_beq same⟩
    · obtain ⟨sound, grows, settled⟩ := ih (.foldl typed (fun _ listed => listed) sound) ends
      exact ⟨sound, (Spreading.grows_foldl _ found).trans grows, settled⟩

theorem spread?_mono {fuel more : Nat} (enough : fuel ≤ more) {found result : Spreading}
    (ends : function.spread? fuel found = some result) :
    function.spread? more found = some result := by
  induction fuel generalizing more found with
  | zero => simp [spread?] at ends
  | succ fuel ih =>
    obtain ⟨more, rfl⟩ : ∃ less, more = less + 1 := ⟨more - 1, by omega⟩
    simp only [spread?] at ends ⊢
    split at ends
    · rename_i same
      rw [if_pos same]
      exact ends
    · rename_i changed
      rw [if_neg changed]
      exact ih (Nat.le_of_succ_le_succ enough) ends

theorem Typed.exists_spread? (typed : function.Typed declared types) (site : Site) :
    ∃ found, function.spread? function.tracePatience ⟨[site], []⟩ = some found := by
  refine typed.spread?_isSome (.start function site) ?_
  have square : (function.instructions.length + 2) * (function.instructions.length + 2) =
      (function.instructions.length + 2) * function.instructions.length +
      (function.instructions.length + 2) * 2 :=
    Nat.mul_add _ _ _
  simp only [tracePatience, List.length_singleton, List.length_nil]
  omega

theorem Typed.mem_derived_iff (typed : function.Typed declared types) {site other : Site} :
    other ∈ function.derived site ↔ function.Derives site other := by
  obtain ⟨found, ends⟩ := typed.exists_spread? site
  obtain ⟨sound, grows, settled⟩ := typed.of_spread? (.start function site) ends
  simp only [derived, ends, Option.map_some, Option.getD_some]
  refine ⟨sound.sites other, fun derives => ?_⟩
  induction derives with
  | refl => exact grows.sites.subset List.mem_cons_self
  | tail _ feeds ih => exact typed.mem_of_feeds settled ih feeds

end Function

end Covenant
