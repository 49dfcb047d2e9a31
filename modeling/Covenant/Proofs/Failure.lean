import Mathlib.Data.List.Forall2

/-!
Computations that may fail: when a sequence of them succeeds, and why one of the computations over a
list fails.
-/

namespace Covenant

variable {ε α β : Type}

theorem chain_eq_ok {first : Except ε α} {next : α → Except ε β} {result : β} :
    (first >>= next) = .ok result ↔ ∃ value, first = .ok value ∧ next value = .ok result := by
  cases first <;> simp [bind, Except.bind]

theorem mapM_eq_ok_iff {change : α → Except ε β} {items : List α} {results : List β} :
    items.mapM change = .ok results ↔
      List.Forall₂ (fun item result => change item = .ok result) items results := by
  induction items generalizing results with
  | nil => simp [pure, Except.pure, eq_comm]
  | cons first rest ih =>
    rw [List.mapM_cons, chain_eq_ok]
    constructor
    · rintro ⟨head, found, mapped⟩
      obtain ⟨tail, later, same⟩ := chain_eq_ok.mp mapped
      obtain rfl := Except.ok.inj same
      exact .cons found (ih.mp later)
    · rintro (_ | ⟨found, later⟩)
      exact ⟨_, found, chain_eq_ok.mpr ⟨_, ih.mpr later, rfl⟩⟩

theorem exists_mapM_eq_ok {change : α → Except ε β} {items : List α}
    (each : ∀ item ∈ items, ∃ result, change item = .ok result) :
    ∃ results, items.mapM change = .ok results := by
  induction items with
  | nil => exact ⟨[], rfl⟩
  | cons first rest ih =>
    obtain ⟨head, found⟩ := each first List.mem_cons_self
    obtain ⟨tail, later⟩ := ih fun item inside => each item (List.mem_cons_of_mem _ inside)
    exact ⟨head :: tail, mapM_eq_ok_iff.mpr (.cons found (mapM_eq_ok_iff.mp later))⟩

theorem mem_of_mapM_eq_ok {change : α → Except ε β} {items : List α} {results : List β}
    (mapped : items.mapM change = .ok results) {result : β} (member : result ∈ results) :
    ∃ item ∈ items, change item = .ok result := by
  obtain ⟨place, there⟩ := List.mem_iff_getElem?.mp member
  have all := mapM_eq_ok_iff.mp mapped
  have inside : place < items.length := all.length_eq ▸ (List.getElem?_eq_some_iff.mp there).1
  obtain ⟨short, rfl⟩ := List.getElem?_eq_some_iff.mp there
  exact ⟨items[place], List.getElem_mem inside, all.get inside short⟩

theorem exists_of_mapM_eq_error {change : α → Except ε β} {items : List α} {problem : ε}
    (failed : items.mapM change = .error problem) :
    ∃ item ∈ items, change item = .error problem := by
  induction items with
  | nil => simp [pure, Except.pure] at failed
  | cons first rest ih =>
    rw [List.mapM_cons] at failed
    cases head : change first with
    | error found =>
      rw [head] at failed
      obtain rfl := Except.error.inj failed
      exact ⟨first, List.mem_cons_self, head⟩
    | ok value =>
      cases tail : rest.mapM change with
      | error found =>
        rw [head, tail] at failed
        obtain rfl := Except.error.inj failed
        obtain ⟨item, inside, same⟩ := ih tail
        exact ⟨item, List.mem_cons_of_mem _ inside, same⟩
      | ok values =>
        rw [head, tail] at failed
        simp [bind, Except.bind, pure, Except.pure] at failed

end Covenant
