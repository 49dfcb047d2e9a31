import Covenant.Proofs.Lowering.Names
import Covenant.Run.Interpreter
import Mathlib.Data.List.Forall2
import Mathlib.Data.List.Nodup

/-!
What a storage holds after a value was put into it, and values that fit the types they are declared
with. A storage in the order of its places stays so, and is found again from the one that it has
come from and what has changed.
-/

namespace Covenant

namespace Storage

theorem lookup_put_same (place : StorageKey) (value : Nat) (storage : Storage) :
    (put place value storage).lookup place = some value := by
  induction storage with
  | nil => exact List.lookup_cons_self
  | cons entry rest ih =>
    obtain ⟨first, held⟩ := entry
    simp only [put]
    split
    · exact List.lookup_cons_self
    · rename_i other
      split
      · exact List.lookup_cons_self
      · have apart : (place == first) = false :=
          beq_eq_false_iff_ne.mpr (Ne.symm (by simpa using other))
        rw [List.lookup_cons, apart]
        exact ih

theorem lookup_put_other {place other : StorageKey} (distinct : other ≠ place) (value : Nat)
    (storage : Storage) :
    (put place value storage).lookup other = storage.lookup other := by
  have apart : (other == place) = false := beq_eq_false_iff_ne.mpr distinct
  induction storage with
  | nil => simp only [put, List.lookup_cons, apart]
  | cons entry rest ih =>
    obtain ⟨first, held⟩ := entry
    simp only [put]
    split
    · rename_i same
      have here : first = place := by simpa using same
      simp only [List.lookup_cons, here, apart]
    · split
      · simp only [List.lookup_cons, apart]
      · simp only [List.lookup_cons, ih]

theorem get_put_same (place : StorageKey) (value : Nat) (storage : Storage) :
    (put place value storage).get place = value := by
  rw [get, lookup_put_same]
  rfl

theorem get_put_other {place other : StorageKey} (distinct : other ≠ place) (value : Nat)
    (storage : Storage) :
    (put place value storage).get other = storage.get other := by
  rw [get, lookup_put_other distinct, get]

theorem mem_put {place : StorageKey} {value : Nat} {storage : Storage} {entry : StorageKey × Nat}
    (member : entry ∈ put place value storage) : entry = (place, value) ∨ entry ∈ storage := by
  induction storage with
  | nil => simpa [put] using member
  | cons head rest ih =>
    obtain ⟨first, held⟩ := head
    simp only [put] at member
    split at member
    · rcases List.mem_cons.mp member with same | later
      · exact .inl same
      · exact .inr (List.mem_cons_of_mem _ later)
    · split at member
      · rcases List.mem_cons.mp member with same | later
        · exact .inl same
        · exact .inr later
      · rcases List.mem_cons.mp member with same | later
        · exact .inr (same ▸ List.mem_cons_self)
        · rcases ih later with same | older
          · exact .inl same
          · exact .inr (List.mem_cons_of_mem _ older)

def Admits (contract : Contract) (place : StorageKey) (value : Nat) : Prop :=
  ∃ field, contract.field? place.field = some field ∧ place.key.isSome = field.ty.isMap ∧
    value ≤ field.ty.content.maxValue

/-- Whether the values of all fields of a contract that are no maps, and those of all entries of
maps, fit their types. -/
def Fits (contract : Contract) (storage : Storage) : Prop :=
  ∀ field ∈ contract.fields, ∀ key : Option Nat, key.isSome = field.ty.isMap →
    storage.get ⟨field.name, key⟩ ≤ field.ty.content.maxValue

theorem fits_nil (contract : Contract) : Fits contract [] := fun _ _ _ _ => Nat.zero_le _

end Storage

namespace Environment

def Fits (env : Environment) : Prop := ∀ var, env.get var ≤ (Ty.ofEnv var).maxValue

theorem fits_zero : zero.Fits := by
  intro var
  cases var <;> exact Nat.zero_le _

theorem Fits.put {env : Environment} (fits : env.Fits) {var : EnvVar} {value : Nat}
    (small : value ≤ (Ty.ofEnv var).maxValue) : (env.put value var).Fits := by
  intro other
  have rest := fits other
  cases var <;> cases other <;> first | exact small | exact rest

end Environment

def Function.Accepts (function : Function) (args : List Nat) : Prop :=
  List.Forall₂ (fun param arg => arg ≤ param.2.maxValue) function.params args

/-! The order of places. -/

namespace StorageKey

variable {first second third : StorageKey}

theorem before_trans (one : first.before second = true) (two : second.before third = true) :
    first.before third = true := by
  obtain ⟨field, key⟩ := first
  obtain ⟨field', key'⟩ := second
  obtain ⟨field'', key''⟩ := third
  simp only [before, beq_iff_eq] at one two ⊢
  by_cases same : field = field'
  · subst same
    rw [if_pos rfl] at one
    by_cases also : field = field''
    · subst also
      rw [if_pos rfl] at two ⊢
      cases key <;> cases key' <;> cases key''
        <;> simp only [decide_eq_true_eq, reduceCtorEq] at one two ⊢
      omega
    · rw [if_neg also] at two ⊢
      exact two
  · rw [if_neg same, decide_eq_true_eq] at one
    by_cases also : field' = field''
    · subst also
      rw [if_neg same, decide_eq_true_eq]
      exact one
    · rw [if_neg also, decide_eq_true_eq] at two
      have less := String.lt_trans one two
      have distinct : field ≠ field'' := by
        rintro rfl
        exact String.lt_irrefl field less
      rw [if_neg distinct, decide_eq_true_eq]
      exact less

theorem before_asymm (one : first.before second = true) : second.before first = false := by
  obtain ⟨field, key⟩ := first
  obtain ⟨field', key'⟩ := second
  simp only [before, beq_iff_eq] at one ⊢
  by_cases same : field = field'
  · subst same
    rw [if_pos rfl] at one ⊢
    cases key <;> cases key'
      <;> simp only [decide_eq_true_eq, decide_eq_false_iff_not, reduceCtorEq] at one ⊢
    omega
  · rw [if_neg same, decide_eq_true_eq] at one
    rw [if_neg (Ne.symm same), decide_eq_false_iff_not]
    exact String.lt_asymm one

theorem before_total {first second : StorageKey} (distinct : first ≠ second)
    (behind : first.before second = false) :
    second.before first = true := by
  obtain ⟨field, key⟩ := first
  obtain ⟨field', key'⟩ := second
  simp only [before, beq_iff_eq] at behind ⊢
  by_cases same : field = field'
  · subst same
    rw [if_pos rfl] at behind ⊢
    cases key <;> cases key'
      <;> simp only [decide_eq_true_eq, decide_eq_false_iff_not, reduceCtorEq] at behind ⊢
    · exact absurd rfl distinct
    · rename_i number other
      have differs : number ≠ other := fun same => distinct (by rw [same])
      omega
  · rw [if_neg same, decide_eq_false_iff_not] at behind
    rw [if_neg (Ne.symm same), decide_eq_true_eq]
    exact ((Std.lt_trichotomy field field').resolve_left behind).resolve_left same

theorem ne_of_before {first second : StorageKey} (before : first.before second = true) :
    first ≠ second := by
  rintro rfl
  rw [before_asymm before] at before
  cases before

end StorageKey

/-! Storages that differ in the value at one place. Whatever is done at other places leaves them so,
and a value that is put at the place makes them the same: as lists, not only in what they hold. -/

namespace Storage

inductive Apart (place : StorageKey) : Storage → Storage → Prop
  | here (value other : Nat) (rest : Storage) : Apart place ((place, value) :: rest)
      ((place, other) :: rest)
  | later {entry : StorageKey × Nat} {left right : Storage} : entry.1 ≠ place →
      place.before entry.1 = false →
      Apart place left right → Apart place (entry :: left) (entry :: right)

variable {place other : StorageKey} {left right : Storage}

theorem apart_put (place : StorageKey) (value other : Nat) (storage : Storage) :
    Apart place (put place value storage) (put place other storage) := by
  induction storage with
  | nil => exact .here value other []
  | cons entry rest ih =>
    obtain ⟨first, held⟩ := entry
    simp only [put]
    split
    · exact .here value other rest
    · rename_i distinct
      split
      · exact .here value other _
      · rename_i behind
        exact .later (by simpa using distinct) (by simpa using behind) ih

namespace Apart

theorem put_same (apart : Apart place left right) (value : Nat) :
    put place value left = put place value right := by
  induction apart with
  | here => simp [put]
  | @later entry _ _ distinct behind _ ih =>
    obtain ⟨first, held⟩ := entry
    have other : (first == place) = false := beq_eq_false_iff_ne.mpr distinct
    simp only [put, other, behind, Bool.false_eq_true, if_false, ih]

/-- A value that is put elsewhere comes before the place in both storages, or behind it in both. -/
theorem put_other (apart : Apart place left right) (distinct : other ≠ place) (value : Nat) :
    Apart place (put other value left) (put other value right) := by
  have elsewhere : (place == other) = false := beq_eq_false_iff_ne.mpr (Ne.symm distinct)
  induction apart with
  | here held also rest =>
    simp only [put, elsewhere, Bool.false_eq_true, if_false]
    split
    · rename_i first
      exact .later distinct (StorageKey.before_asymm first) (.here held also rest)
    · exact .here held also _
  | @later entry left right apart behind further ih =>
    obtain ⟨first, held⟩ := entry
    simp only [put]
    split
    · exact .later distinct (by rename_i same; exact eq_of_beq same ▸ behind) further
    · split
      · rename_i ahead
        -- what comes before the entry comes before the place, as the place does not come before the
        -- entry
        refine .later distinct (Bool.eq_false_iff.mpr fun before => ?_)
          (.later apart behind further)
        exact absurd (StorageKey.before_trans before ahead) (by simpa using behind)
      · exact .later apart behind ih

theorem get_other (apart : Apart place left right) (distinct : other ≠ place) :
    left.get other = right.get other := by
  have elsewhere : (other == place) = false := beq_eq_false_iff_ne.mpr distinct
  induction apart with
  | here => simp only [get, List.lookup_cons, elsewhere]
  | @later entry _ _ _ _ _ ih =>
    obtain ⟨first, held⟩ := entry
    simp only [get, List.lookup_cons] at ih ⊢
    split
    · rfl
    · exact ih

end Apart

end Storage

/-! Storages in order. -/

namespace Storage

variable {storage initial final upper : Storage} {place : StorageKey}

def Sorted (storage : Storage) : Prop :=
  storage.Pairwise fun first second => first.1.before second.1 = true

theorem Sorted.distinct (sorted : storage.Sorted) : (storage.map Prod.fst).Nodup :=
  List.pairwise_map.mpr (sorted.imp StorageKey.ne_of_before)

theorem Sorted.filter (sorted : storage.Sorted) (keep : StorageKey × Nat → Bool) :
    Sorted (storage.filter keep) :=
  List.Pairwise.filter keep sorted

theorem Sorted.put (sorted : storage.Sorted) (place : StorageKey) (value : Nat) :
    (put place value storage).Sorted := by
  induction storage with
  | nil => exact List.pairwise_singleton _ _
  | cons entry rest ih =>
    obtain ⟨first, held⟩ := entry
    obtain ⟨ahead, others⟩ := List.pairwise_cons.mp sorted
    simp only [Storage.put]
    split
    · rename_i same
      obtain rfl : first = place := by simpa using same
      exact List.pairwise_cons.mpr ⟨ahead, others⟩
    · rename_i distinct
      split
      · rename_i before
        refine List.pairwise_cons.mpr
          ⟨List.forall_mem_cons.mpr ⟨before, fun later member => ?_⟩, sorted⟩
        exact StorageKey.before_trans before (ahead later member)
      · rename_i behind
        refine List.pairwise_cons.mpr ⟨fun later member => ?_, ih others⟩
        rcases mem_put member with rfl | old
        · exact StorageKey.before_total (by simpa using Ne.symm (by simpa using distinct))
            (by simpa using behind)
        · exact ahead later old

theorem Sorted.lookup_eq_some (sorted : storage.Sorted) {value : Nat} :
    storage.lookup place = some value ↔ (place, value) ∈ storage :=
  ⟨mem_of_lookup, fun member => lookup_of_mem sorted.distinct member⟩

theorem Sorted.eq_of_lookup (sorted : initial.Sorted) (other : final.Sorted)
    (same : ∀ place, initial.lookup place = final.lookup place) : initial = final := by
  have unique (storage : Storage) (ordered : storage.Sorted) : storage.Nodup :=
    List.Nodup.of_map Prod.fst ordered.distinct
  have perm : initial.Perm final :=
    (List.perm_ext_iff_of_nodup (unique _ sorted) (unique _ other)).mpr fun entry => by
    rw [← sorted.lookup_eq_some, ← other.lookup_eq_some, same]
  refine perm.eq_of_pairwise (fun first second _ _ before behind => ?_) sorted other
  rw [StorageKey.before_asymm before] at behind
  cases behind

theorem Sorted.overlay (sorted : storage.Sorted) (upper : Storage) :
    (storage.overlay upper).Sorted := by
  induction upper generalizing storage with
  | nil => exact sorted
  | cons entry rest ih => exact ih (sorted.put entry.1 entry.2)

theorem lookup_overlay (distinct : (upper.map Prod.fst).Nodup) (storage : Storage)
    (place : StorageKey) :
    (storage.overlay upper).lookup place = (upper.lookup place).or (storage.lookup place) := by
  induction upper generalizing storage with
  | nil => rfl
  | cons entry rest ih =>
    obtain ⟨first, value⟩ := entry
    obtain ⟨fresh, others⟩ := List.nodup_cons.mp distinct
    have laid := ih others (put first value storage)
    rw [show storage.overlay ((first, value) :: rest) =
      (put first value storage).overlay rest from rfl, laid]
    by_cases same : place = first
    · subst same
      have absent : rest.lookup place = none := List.lookup_eq_none_iff.mpr fun entry member =>
        bne_iff_ne.mpr fun same => fresh (List.mem_map.mpr ⟨entry, member, same.symm⟩)
      rw [absent, lookup_put_same, List.lookup_cons_self]
      rfl
    · rw [lookup_put_other same, List.lookup_cons, beq_eq_false_iff_ne.mpr same]

/-- A storage is found again from one whose places it has kept, with what has changed laid over it.
-/
theorem overlay_changed (sorted : initial.Sorted) (other : final.Sorted)
    (keeps : ∀ place, (initial.lookup place).isSome = true → (final.lookup place).isSome = true) :
    initial.overlay (final.filter fun entry => initial.lookup entry.1 != some entry.2) = final := by
  have changed := other.filter fun entry => initial.lookup entry.1 != some entry.2
  refine (sorted.overlay _).eq_of_lookup other fun place => ?_
  rw [lookup_overlay changed.distinct]
  cases held : final.lookup place with
  | none =>
    have absent : initial.lookup place = none := by
      by_contra present
      have kept := keeps place (Option.isSome_iff_ne_none.mpr present)
      rw [held] at kept
      cases kept
    have unchanged :
        (final.filter fun entry => initial.lookup entry.1 != some entry.2).lookup place = none := by
      rw [List.lookup_eq_none_iff] at held ⊢
      exact fun entry member => held entry (List.mem_of_mem_filter member)
    rw [unchanged, absent]
    rfl
  | some value =>
    by_cases same : initial.lookup place = some value
    · have unchanged : (final.filter fun entry => initial.lookup entry.1 != some entry.2).lookup
          place = none := by
        rw [Option.eq_none_iff_forall_ne_some]
        intro later found
        obtain ⟨member, differs⟩ := List.mem_filter.mp (changed.lookup_eq_some.mp found)
        obtain rfl := Option.some.inj (held.symm.trans (other.lookup_eq_some.mpr member))
        simp [same] at differs
      rw [unchanged, same]
      rfl
    · have found : (final.filter fun entry => initial.lookup entry.1 != some entry.2).lookup place =
          some value := by
        rw [changed.lookup_eq_some, List.mem_filter]
        exact ⟨other.lookup_eq_some.mp held, by simpa using same⟩
      rw [found]
      rfl

/-- Whether a storage has come from another one by writing: it is in order if that one is, keeps the
places, and has no values but those of that one and those that were written. -/
structure ComesFrom (initial : Storage) (stores : List StoreRecord) (final : Storage) : Prop where
  sorted : initial.Sorted → final.Sorted
  keeps : ∀ place, (initial.lookup place).isSome = true → (final.lookup place).isSome = true
  written : ∀ entry ∈ final, entry ∈ initial ∨ ∃ record ∈ stores,
    entry = (record.place, record.value)

theorem comesFrom_self (storage : Storage) (stores : List StoreRecord) :
    ComesFrom storage stores storage :=
  ⟨id, fun _ => id, fun _ => .inl⟩

theorem ComesFrom.put {stores : List StoreRecord} (comes : ComesFrom initial stores final)
    (record : StoreRecord) :
    ComesFrom initial (record :: stores) (put record.place record.value final) where
  sorted ordered := (comes.sorted ordered).put record.place record.value
  keeps place held := by
    by_cases same : place = record.place
    · rw [same, lookup_put_same]
      rfl
    · rw [lookup_put_other same]
      exact comes.keeps place held
  written entry member := by
    rcases mem_put member with here | old
    · exact .inr ⟨record, List.mem_cons_self, here⟩
    · rcases comes.written entry old with first | ⟨earlier, listed, same⟩
      · exact .inl first
      · exact .inr ⟨earlier, List.mem_cons_of_mem _ listed, same⟩

end Storage

end Covenant
