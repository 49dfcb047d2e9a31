import Mathlib.Data.List.Basic
import Mathlib.Data.List.Sort

/-!
Finding items of lists by their names and entries of tables by their keys.
-/

namespace Covenant

section

variable {α β κ : Type} [BEq κ] [LawfulBEq κ]

theorem find?_eq_some_of_nodup {name : α → κ} {items : List α} (distinct : (items.map name).Nodup)
    {item : α} (member : item ∈ items) :
    (items.find? fun other => name other == name item) = some item := by
  induction items with
  | nil => simp at member
  | cons first rest ih =>
    simp only [List.map_cons, List.nodup_cons] at distinct
    rcases List.mem_cons.mp member with rfl | later
    · simp
    · have other : name first ≠ name item := by
        intro same
        exact distinct.1 (same ▸ List.mem_map_of_mem later)
      simp only [List.find?_cons, beq_eq_false_iff_ne.mpr other]
      exact ih distinct.2 later

theorem mem_of_lookup {key : κ} {value : β} {entries : List (κ × β)}
    (found : entries.lookup key = some value) : (key, value) ∈ entries := by
  induction entries with
  | nil => simp at found
  | cons entry rest ih =>
    obtain ⟨first, held⟩ := entry
    simp only [List.lookup_cons] at found
    split at found
    · rename_i same
      obtain rfl := Option.some.inj found
      rw [eq_of_beq same]
      exact List.mem_cons_self
    · exact List.mem_cons_of_mem _ (ih found)

theorem lookup_of_mem {entries : List (κ × β)} (distinct : (entries.map Prod.fst).Nodup)
    {entry : κ × β} (member : entry ∈ entries) : entries.lookup entry.1 = some entry.2 := by
  induction entries with
  | nil => simp at member
  | cons first rest ih =>
    rw [List.map_cons, List.nodup_cons] at distinct
    rcases List.mem_cons.mp member with rfl | later
    · exact List.lookup_cons_self
    · have other : entry.1 ≠ first.1 := by
        intro same
        exact distinct.1 (same ▸ List.mem_map_of_mem later)
      rw [List.lookup_cons, beq_eq_false_iff_ne.mpr other]
      exact ih distinct.2 later

theorem lookup_map (items : List α) (name : α → κ) (held : α → β) (wanted : κ) :
    (items.map fun item => (name item, held item)).lookup wanted =
      (items.find? fun item => name item == wanted).map held := by
  induction items with
  | nil => rfl
  | cons first rest ih =>
    simp only [List.map_cons, List.lookup_cons, List.find?_cons]
    rw [Bool.beq_comm]
    cases name first == wanted with
    | true => rfl
    | false => exact ih

end

/-!
Lists in a strict order. Such a list is determined by its items.
-/

variable {α β : Type} {order : α → α → Ordering} {items others : List α}

def Ascending (order : α → α → Ordering) (items : List α) : Prop :=
  items.Pairwise fun first second => order first second = .lt

theorem transCmp_on (order : β → β → Ordering) [Std.TransCmp order] (key : α → β) :
    Std.TransCmp fun first second => order (key first) (key second) where
  eq_swap := Std.OrientedCmp.eq_swap
  isLE_trans := Std.TransCmp.isLE_trans

theorem transCmp_then (order other : α → α → Ordering) [Std.TransCmp order] [Std.TransCmp other] :
    Std.TransCmp fun first second => (order first second).then (other first second) :=
  inferInstanceAs (Std.TransCmp (compareLex order other))

namespace Ascending

theorem nodup [Std.TransCmp order] (ascending : Ascending order items) : items.Nodup := by
  refine ascending.imp ?_
  rintro first _ before rfl
  simp [Std.ReflCmp.compare_self] at before

theorem eq_of_mem_iff [Std.TransCmp order] (ascending : Ascending order items)
    (other : Ascending order others) (same : ∀ item, item ∈ items ↔ item ∈ others) :
    items = others := by
  have perm := (List.perm_ext_iff_of_nodup ascending.nodup other.nodup).mpr same
  refine perm.eq_of_pairwise ?_ ascending other
  intro first second _ _ before behind
  have swapped : order first second = (order second first).swap := Std.OrientedCmp.eq_swap
  rw [swapped, behind] at before
  simp at before

theorem filter (ascending : Ascending order items) (keep : α → Bool) :
    Ascending order (items.filter keep) :=
  List.Pairwise.filter keep ascending

end Ascending

theorem sorted_mergeSort [Std.TransCmp order] (items : List α) :
    (items.mergeSort fun first second => (order first second).isLE).Pairwise fun first second =>
      (order first second).isLE = true := by
  apply List.pairwise_mergeSort
  · intro first second third
    exact Std.TransCmp.isLE_trans
  · intro first second
    cases compared : order first second with
    | lt => rfl
    | eq => rfl
    | gt => simp [Std.OrientedCmp.gt_iff_lt.mp compared]

theorem nodup_eraseDups [BEq α] [LawfulBEq α] (items : List α) : items.eraseDups.Nodup := by
  induction length : items.length using Nat.strong_induction_on generalizing items with
  | _ count ih =>
    cases items with
    | nil => simp
    | cons first rest =>
      rw [List.eraseDups_cons, List.nodup_cons]
      have shorter := List.length_filter_le (fun item => !item == first) rest
      rw [List.length_cons] at length
      constructor
      · simp [List.mem_eraseDups]
      · exact ih _ (by omega) _ rfl

theorem ascending_mergeSort [Std.TransCmp order] [Std.LawfulEqCmp order] (nodup : items.Nodup) :
    Ascending order (items.mergeSort fun first second => (order first second).isLE) := by
  have once : (items.mergeSort fun first second => (order first second).isLE).Nodup :=
    (List.mergeSort_perm items _).nodup_iff.mpr nodup
  refine (sorted_mergeSort items).imp₂ ?_ once
  intro first second before different
  have unequal : order first second ≠ .eq :=
    fun same => different (Std.LawfulEqCmp.eq_of_compare same)
  cases compared : order first second with
  | lt => rfl
  | eq => exact absurd compared unequal
  | gt => simp [compared] at before

end Covenant
