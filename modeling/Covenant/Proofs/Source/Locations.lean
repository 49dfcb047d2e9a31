import Covenant.Source.Location
import Mathlib.Data.List.Induction
import Mathlib.Data.List.TakeWhile

/-!
Offsets and locations of a text stand for one another. The location of an offset is read off the
characters before it, and grows with them; each place on a line, up to the one behind its last
character, is the location of one offset.
-/

namespace Covenant

namespace Location

def behind (before : List Char) : Location :=
  ⟨before.count '\n' + 1, (before.reverse.takeWhile (· != '\n')).length + 1⟩

theorem order_eq_lt {first second : Location} : first.order second = .lt ↔
    first.line < second.line ∨ first.line = second.line ∧ first.column < second.column := by
  simp [order, Ordering.then_eq_lt, Nat.compare_eq_lt]

theorem order_trans {first second third : Location} (before : first.order second = .lt)
    (after : second.order third = .lt) : first.order third = .lt := by
  rw [order_eq_lt] at before after ⊢
  omega

theorem behind_unbroken {body : List Char} (unbroken : '\n' ∉ body) :
    behind body = ⟨1, body.length + 1⟩ := by
  have all : ∀ char ∈ body.reverse, (char != '\n') = true := by
    intro char member
    have other : char ≠ '\n' := by
      rintro rfl
      exact unbroken (List.mem_reverse.mp member)
    simpa using other
  have whole : body.reverse.takeWhile (· != '\n') = body.reverse :=
    List.takeWhile_eq_self_iff.mpr all
  rw [behind, whole, List.count_eq_zero.mpr unbroken, List.length_reverse]

theorem behind_broken (before rest : List Char) :
    behind (before ++ '\n' :: rest) =
      ⟨before.count '\n' + 1 + (behind rest).line, (behind rest).column⟩ := by
  have count : (before ++ '\n' :: rest).count '\n' + 1 = before.count '\n' + 1 +
      (rest.count '\n' + 1) := by
    rw [List.count_append, List.count_cons_self]
    omega
  have column : (before ++ '\n' :: rest).reverse.takeWhile (· != '\n') = rest.reverse.takeWhile
      (· != '\n') := by
    rw [List.reverse_append, List.reverse_cons, List.append_assoc, List.takeWhile_append]
    split
    · rename_i all
      have stops : ([ '\n'] ++ before.reverse).takeWhile (· != '\n') = [] := by simp
      rw [stops, List.append_nil]
      exact ((List.takeWhile_prefix _).eq_of_length all).symm
    · rfl
  simp only [behind, count, column]

theorem behind_lt (before : List Char) (char : Char) :
    (behind before).order (behind (before ++ [char])) = .lt := by
  rw [order_eq_lt]
  by_cases newline : char = '\n'
  · exact .inl (by simp [behind, newline])
  · exact .inr (by simp [behind, newline])

end Location

namespace LineTable

/-! Where lines start. -/

theorem starts_append (base : Nat) (first second : List Char) :
    startsAfterNewlines base (first ++ second) =
      startsAfterNewlines base first ++ startsAfterNewlines (base + first.length) second := by
  induction first generalizing base with
  | nil => rfl
  | cons char rest ih =>
    have shifted : base + (char :: rest).length = base + 1 + rest.length := by
      rw [List.length_cons]
      omega
    simp only [List.cons_append, startsAfterNewlines, ih, shifted]
    split <;> rfl

theorem length_starts (base : Nat) (chars : List Char) :
    (startsAfterNewlines base chars).length = chars.count '\n' := by
  induction chars generalizing base with
  | nil => rfl
  | cons char rest ih =>
    rw [startsAfterNewlines, List.count_cons]
    split <;> simp_all

theorem starts_unbroken (base : Nat) {chars : List Char} (unbroken : '\n' ∉ chars) :
    startsAfterNewlines base chars = [] := by
  rw [← List.length_eq_zero_iff, length_starts, List.count_eq_zero]
  exact unbroken

theorem lt_of_mem_starts {base start : Nat} {chars : List Char}
    (member : start ∈ startsAfterNewlines base chars) :
    base < start := by
  induction chars generalizing base with
  | nil => cases member
  | cons char rest ih =>
    rw [startsAfterNewlines] at member
    split at member
    · rcases List.mem_cons.mp member with rfl | later
      · exact Nat.lt_succ_self _
      · exact Nat.lt_of_succ_lt (ih later)
    · exact Nat.lt_of_succ_lt (ih member)

/-! The location of an offset. -/

/-- What is found from the start of a line, of which some characters have been passed. -/
theorem locateFrom_eq (line lineStart : Nat) {held : List Char} (unbroken : '\n' ∉ held)
    (before after : List Char) :
    locateFrom (lineStart + (held ++ before).length) (line + 1) lineStart
        (startsAfterNewlines (lineStart + held.length) (before ++ after)) =
      ⟨line + (Location.behind (held ++ before)).line,
        (Location.behind (held ++ before)).column⟩ := by
  induction before generalizing line lineStart held with
  | nil =>
    rw [List.append_nil, Location.behind_unbroken unbroken, List.nil_append]
    cases later : startsAfterNewlines (lineStart + held.length) after with
    | nil => simp [locateFrom]
    | cons next rest =>
      have beyond : lineStart + held.length < next :=
        lt_of_mem_starts (by rw [later]; exact List.mem_cons_self)
      simp [locateFrom, Nat.not_le.mpr beyond]
  | cons char rest ih =>
    by_cases newline : char = '\n'
    · subst newline
      have length : lineStart + (held ++ '\n' :: rest).length = lineStart + held.length + 1 +
          ([] ++ rest).length := by
        simp only [List.length_append, List.length_cons, List.length_nil]
        omega
      have reached : lineStart + held.length + 1 ≤ lineStart + held.length + 1 +
          ([] ++ rest).length := by omega
      have fresh : '\n' ∉ ([] : List Char) := List.not_mem_nil
      have found := ih (line + 1) (lineStart + held.length + 1) fresh
      have none : held.count '\n' = 0 := List.count_eq_zero.mpr unbroken
      rw [List.cons_append, startsAfterNewlines, if_pos rfl, length, locateFrom, if_pos reached,
        Location.behind_broken, none]
      rw [List.length_nil, Nat.add_zero] at found
      rw [found, List.nil_append]
      simp only [Location.mk.injEq, and_true]
      omega
    · have longer : '\n' ∉ held ++ [char] := by simp [unbroken, Ne.symm newline]
      have found := ih line lineStart longer
      have shifted : lineStart + (held ++ [char]).length = lineStart + held.length + 1 := by
        rw [List.length_append, List.length_singleton, Nat.add_assoc]
      rw [List.append_assoc, List.singleton_append, shifted] at found
      rw [List.cons_append, startsAfterNewlines, if_neg newline, found]

theorem location_eq {chars : List Char} {offset : Nat} (inside : offset ≤ chars.length) :
    (ofChars chars).location offset = .behind (chars.take offset) := by
  have fresh : '\n' ∉ ([] : List Char) := List.not_mem_nil
  have found := locateFrom_eq 0 0 fresh (chars.take offset) (chars.drop offset)
  rw [List.take_append_drop, List.nil_append, List.length_take_of_le inside] at found
  have reached : min offset chars.length = offset := Nat.min_eq_left inside
  simpa [location, ofChars, reached] using found

theorem location_of_beyond {table : LineTable} {offset : Nat} (beyond : table.length ≤ offset) :
    table.location offset = table.location table.length := by
  rw [location, location, Nat.min_eq_right beyond, Nat.min_self]

theorem location_lt {chars : List Char} {first second : Nat} (before : first < second)
    (inside : second ≤ chars.length) :
    ((ofChars chars).location first).order ((ofChars chars).location second) = .lt := by
  induction second with
  | zero => omega
  | succ second ih =>
    have last : second < chars.length := inside
    have grows : ((ofChars chars).location second).order ((ofChars chars).location (second + 1)) =
        .lt := by
      rw [location_eq (Nat.le_of_lt last), location_eq inside,
        List.take_succ_eq_append_getElem last]
      exact Location.behind_lt _ _
    rcases Nat.lt_succ_iff_lt_or_eq.mp before with earlier | rfl
    · exact Location.order_trans (ih earlier (Nat.le_of_lt last)) grows
    · exact grows

/-! The offset of a location. -/

structure HasLine (chars : List Char) (number : Nat) (before body after : List Char) : Prop where
  split : chars = before ++ body ++ after
  counted : before.count '\n' = number
  opened : before = [] ∨ ∃ early, before = early ++ ['\n']
  unbroken : '\n' ∉ body
  closed : after = [] ∨ ∃ late, after = '\n' :: late

variable {chars before body after : List Char} {number : Nat}

/-- Lines are what stands between newlines. -/
theorem exists_hasLine (listed : (chars.splitOn '\n')[number]? = some body) :
    ∃ before after, HasLine chars number before body after := by
  induction chars generalizing number body with
  | nil =>
    obtain ⟨rfl, rfl⟩ : number = 0 ∧ [] = body := by
      cases number <;> simp_all
    exact ⟨[], [], rfl, rfl, .inl rfl, List.not_mem_nil, .inl rfl⟩
  | cons char rest ih =>
    rw [List.splitOn, List.splitOnP_cons_eq_if_modifyHead] at listed
    by_cases newline : char = '\n'
    · rw [if_pos (by simpa using newline)] at listed
      cases number with
      | zero =>
        obtain rfl : [] = body := by simpa using listed
        exact ⟨[], char :: rest, rfl, rfl, .inl rfl, List.not_mem_nil, .inr ⟨rest, by rw [newline]⟩⟩
      | succ number =>
        obtain ⟨before, after, line⟩ := ih listed
        refine ⟨char :: before, after, by simp [line.split], by simp [newline, line.counted],
          .inr ?_, line.unbroken, line.closed⟩
        rcases line.opened with rfl | ⟨early, rfl⟩
        · exact ⟨[], by rw [newline]; rfl⟩
        · exact ⟨char :: early, rfl⟩
    · rw [if_neg (by simpa using newline), List.getElem?_modifyHead] at listed
      cases number with
      | zero =>
        obtain ⟨first, found, rfl⟩ := Option.map_eq_some_iff.mp listed
        obtain ⟨before, after, line⟩ := ih found
        obtain rfl : before = [] := by
          rcases line.opened with none | ⟨early, rfl⟩
          · exact none
          · simpa using line.counted
        refine ⟨[], after, by simp [line.split], rfl, .inl rfl, ?_, line.closed⟩
        simp [line.unbroken, Ne.symm newline]
      | succ number =>
        obtain ⟨before, after, line⟩ := ih listed
        refine ⟨char :: before, after, by simp [line.split], by simp [newline, line.counted],
          .inr ?_, line.unbroken, line.closed⟩
        rcases line.opened with rfl | ⟨early, rfl⟩
        · cases line.counted
        · exact ⟨char :: early, rfl⟩

namespace HasLine

variable (line : HasLine chars number before body after)

include line

theorem starts_eq : ∃ earlier, earlier.length = number ∧ (ofChars chars).starts =
    earlier ++ before.length :: startsAfterNewlines (before.length + body.length) after := by
  have rest : startsAfterNewlines 0 chars =
      startsAfterNewlines 0 before ++ startsAfterNewlines (before.length + body.length) after := by
    rw [line.split, List.append_assoc, starts_append, starts_append,
      starts_unbroken _ line.unbroken, List.nil_append, Nat.zero_add]
  rw [starts, ofChars, rest]
  rcases line.opened with rfl | ⟨early, rfl⟩
  · exact ⟨[], line.counted, rfl⟩
  · refine ⟨0 :: startsAfterNewlines 0 early, ?_, ?_⟩
    · rw [← line.counted, List.length_cons, length_starts, List.count_append,
        List.count_singleton_self]
    · rw [starts_append 0 early]
      simp [startsAfterNewlines]

/-- A column of the line, or the one behind it, is so far from the start of the line. -/
theorem offset_eq {column : Nat} (within : column ≤ body.length) :
    (ofChars chars).offset ⟨number + 1, column + 1⟩ = before.length + column := by
  obtain ⟨earlier, counted, starts⟩ := line.starts_eq
  have clamped : min (max (number + 1) 1) (ofChars chars).starts.length - 1 = number := by
    rw [starts, List.length_append, List.length_cons]
    omega
  have start : (ofChars chars).starts.getD number 0 = before.length := by
    rw [starts, ← counted, List.getD_eq_getElem?_getD, List.getElem?_append_right (Nat.le_refl _),
      Nat.sub_self]
    rfl
  have next : (ofChars chars).starts[number + 1]? =
      (startsAfterNewlines (before.length + body.length) after)[0]? := by
    have further : number + 1 - earlier.length = 1 := by omega
    rw [starts, List.getElem?_append_right (by omega), further, List.getElem?_cons_succ]
  rw [offset]
  dsimp only
  rw [clamped, start, next, Nat.add_sub_cancel]
  rcases line.closed with rfl | ⟨late, rfl⟩
  · have length : (ofChars chars).length = before.length + body.length := by
      simp [ofChars, line.split]
    simp only [startsAfterNewlines, List.getElem?_nil, length]
    exact Nat.min_eq_left (Nat.add_le_add_left within _)
  · simp only [startsAfterNewlines, if_true, List.getElem?_cons_zero, Nat.add_sub_cancel]
    exact Nat.min_eq_left (Nat.add_le_add_left within _)

theorem location_eq {column : Nat} (within : column ≤ body.length) :
    (ofChars chars).location (before.length + column) = ⟨number + 1, column + 1⟩ := by
  have inside : before.length + column ≤ chars.length := by
    rw [line.split, List.length_append, List.length_append]
    omega
  have taken : chars.take (before.length + column) = before ++ body.take column := by
    rw [line.split, List.append_assoc, List.take_length_add_append,
      List.take_append_of_le_length within]
  have unbroken : '\n' ∉ body.take column :=
    fun member => line.unbroken (List.mem_of_mem_take member)
  have width : (body.take column).length = column := List.length_take_of_le within
  rw [LineTable.location_eq inside, taken, ← line.counted]
  rcases line.opened with rfl | ⟨early, rfl⟩
  · rw [List.nil_append, Location.behind_unbroken unbroken, width]
    rfl
  · rw [List.append_assoc, List.singleton_append, Location.behind_broken,
      Location.behind_unbroken unbroken, width, List.count_append, List.count_singleton_self]

end HasLine

theorem exists_opening (chars : List Char) : ∃ before body, chars = before ++ body ∧ '\n' ∉ body ∧
    (before = [] ∨ ∃ early, before = early ++ ['\n']) := by
  induction chars using List.reverseRec with
  | nil => exact ⟨[], [], rfl, List.not_mem_nil, .inl rfl⟩
  | append_singleton rest char ih =>
    by_cases newline : char = '\n'
    · exact ⟨rest ++ [char], [], by simp, List.not_mem_nil, .inr ⟨rest, by rw [newline]⟩⟩
    · obtain ⟨before, body, rfl, unbroken, opened⟩ := ih
      exact ⟨before, body ++ [char], by simp, by simp [unbroken, Ne.symm newline], opened⟩

theorem exists_closing (chars : List Char) : ∃ body after, chars = body ++ after ∧ '\n' ∉ body ∧
    (after = [] ∨ ∃ late, after = '\n' :: late) := by
  induction chars with
  | nil => exact ⟨[], [], rfl, List.not_mem_nil, .inl rfl⟩
  | cons char rest ih =>
    by_cases newline : char = '\n'
    · exact ⟨[], char :: rest, rfl, List.not_mem_nil, .inr ⟨rest, by rw [newline]⟩⟩
    · obtain ⟨body, after, rfl, unbroken, closed⟩ := ih
      exact ⟨char :: body, after, rfl, by simp [unbroken, Ne.symm newline], closed⟩

theorem exists_line_of_offset {offset : Nat} (inside : offset ≤ chars.length) :
    ∃ number before body after, HasLine chars number before body after ∧
      ∃ column ≤ body.length, before.length + column = offset := by
  obtain ⟨before, held, opening, unbroken, opened⟩ := exists_opening (chars.take offset)
  obtain ⟨more, after, closing, whole, closed⟩ := exists_closing (chars.drop offset)
  refine ⟨_, before, held ++ more, after, ⟨?_, rfl, opened, ?_, closed⟩, held.length, by simp, ?_⟩
  · rw [← List.take_append_drop offset chars, opening, closing]
    simp only [List.append_assoc]
  · simp [unbroken, whole]
  · rw [← List.length_append, ← opening, List.length_take_of_le inside]

/-- Up to the end of a text, offsets and locations match: each offset is found again from its
location, whose line counts the newlines before it, and locations ascend with the offsets; offsets
beyond the end are taken for the end. Each column of a line, and the one behind its last character,
is found again from its offset. -/
theorem offsets_match_locations (text : String) :
    let table := ofText text
    (∀ offset ≤ text.length, table.offset (table.location offset) = offset ∧
      (table.location offset).line = 1 + (text.toList.take offset).count '\n') ∧
      (∀ first second, first < second → second ≤ text.length →
        (table.location first).order (table.location second) = .lt) ∧
      (∀ offset, text.length ≤ offset → table.location offset = table.location text.length) ∧
      ∀ (location : Location) (body : List Char), 1 ≤ location.line →
        (text.toList.splitOn '\n')[location.line - 1]? = some body → 1 ≤ location.column →
        location.column ≤ body.length + 1 → table.location (table.offset location) = location := by
  intro table
  have length : text.length = text.toList.length := String.length_toList.symm
  refine ⟨?_, ?_, ?_, ?_⟩
  · intro offset inside
    rw [length] at inside
    obtain ⟨number, before, body, after, line, column, within, rfl⟩ := exists_line_of_offset inside
    constructor
    · rw [show table = ofChars text.toList from rfl, line.location_eq within, line.offset_eq within]
    · rw [show table = ofChars text.toList from rfl, LineTable.location_eq inside]
      exact Nat.add_comm _ _
  · intro first second before inside
    exact location_lt before (length ▸ inside)
  · intro offset beyond
    rw [length] at beyond ⊢
    exact location_of_beyond beyond
  · intro location body known listed positive within
    obtain ⟨number, column⟩ := location
    obtain ⟨number, rfl⟩ := Nat.exists_eq_add_of_le' known
    obtain ⟨column, rfl⟩ := Nat.exists_eq_add_of_le' positive
    obtain ⟨before, after, line⟩ : ∃ before after, HasLine text.toList number before body after :=
      exists_hasLine listed
    have inside : column ≤ body.length := Nat.le_of_succ_le_succ within
    rw [show table = ofChars text.toList from rfl, line.offset_eq inside, line.location_eq inside]

/-- A text with an empty line and without a newline at its end: the newline that makes up its third
line, the end of the text, and what lies beyond it. -/
theorem offsets_match_locations_of_empty_line :
    let text := "ab\ncd\n\nef"
    let table := ofText text
    table.location 6 = ⟨3, 1⟩ ∧ table.offset ⟨3, 1⟩ = 6 ∧ table.offset (table.location 9) = 9 ∧
      (table.location 6).order (table.location 7) = .lt ∧ table.location 40 = table.location 9 ∧
      table.location (table.offset ⟨4, 3⟩) = ⟨4, 3⟩ := by
  intro text table
  obtain ⟨found, ascends, beyond, back⟩ := offsets_match_locations text
  have length : text.length = 9 := by decide
  refine ⟨by decide, by decide, (found 9 (by decide)).1,
    ascends 6 7 (by decide) (by decide), ?_, ?_⟩
  · rw [← length]
    exact beyond 40 (by decide)
  · exact back ⟨4, 3⟩ ['e', 'f'] (by decide) (by decide) (by decide) (by decide)

end LineTable

end Covenant
