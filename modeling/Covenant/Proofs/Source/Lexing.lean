import Covenant.Proofs.Source.Spelling
import Covenant.Proofs.Source.Trivia

/-!
What reading a text gives, and which texts give what. The tokens of a text stand apart and in order,
each spelled by its characters, and if there was no problem nothing but trivia is left between them.
Tokens that are written with blanks between them are read back.
-/

namespace Covenant

namespace Lexer

variable {chars : List Char}

structure Cursor.Stands (chars : List Char) (cursor : Cursor) : Prop where
  here : chars.drop cursor.offset = cursor.rest
  inside : cursor.offset ≤ chars.length

theorem Cursor.Stands.length_rest {cursor : Cursor} (stands : cursor.Stands chars) :
    cursor.offset + cursor.rest.length = chars.length := by
  have inside := stands.inside
  rw [← stands.here, List.length_drop]
  omega

theorem Cursor.Stands.skip {cursor : Cursor} (stands : cursor.Stands chars) {count : Nat}
    (left : count ≤ cursor.rest.length) : (cursor.skip count).Stands chars := by
  have all := stands.length_rest
  constructor
  · change chars.drop (cursor.offset + count) = cursor.rest.drop count
    rw [← List.drop_drop, stands.here]
  · change cursor.offset + count ≤ chars.length
    omega

theorem Cursor.Stands.skipTrivia {cursor : Cursor} (stands : cursor.Stands chars) :
    cursor.skipTrivia.Stands chars ∧ cursor.offset ≤ cursor.skipTrivia.offset ∧
      IsTrivia chars cursor.offset cursor.skipTrivia.offset := by
  obtain ⟨width, trivia, reached, measured⟩ := isTrivia_of_afterTrivia stands.here
  have all := stands.length_rest
  have passed : cursor.skipTrivia.offset = cursor.offset + width := by
    change cursor.offset + (cursor.rest.length - (afterTrivia cursor.rest).length) = _
    omega
  refine ⟨⟨?_, ?_⟩, by omega, ?_⟩
  · rw [passed, reached]
    rfl
  · omega
  · rwa [passed]

structure Reading.Sound (chars : List Char) (start : Nat) (reading : Reading) : Prop where
  behind : start ≤ reading.lexeme.span.start
  filled : reading.lexeme.span.start < reading.lexeme.span.stop
  spelled : reading.lexeme.token.SpelledBy (reading.lexeme.span.slice chars)
  before : IsTrivia chars start reading.lexeme.span.start
  further : reading.lexeme.span.stop ≤ reading.next.offset
  after : IsTrivia chars reading.lexeme.span.stop reading.next.offset
  next : reading.next.Stands chars

theorem read_sound {cursor : Cursor} (stands : cursor.Stands chars) {reading : Reading}
    (found : read? cursor = some reading) : reading.Sound chars cursor.offset := by
  obtain ⟨start, passed, trivia⟩ := stands.skipTrivia
  simp only [read?, Option.map_eq_some_iff] at found
  obtain ⟨⟨token, width⟩, read, rfl⟩ := found
  obtain ⟨positive, bound, spelled⟩ := token_spelled read
  obtain ⟨next, further, more⟩ := (start.skip bound).skipTrivia
  refine ⟨passed, by simpa using positive, ?_, trivia, further, more, next⟩
  rw [← start.here] at spelled
  simpa [Span.slice] using spelled

theorem resume_sound {offset : Nat} {rest : List Char}
    (stands : Cursor.Stands chars ⟨offset, rest⟩) {reading : Reading}
    (found : resume? offset rest = some reading) :
    ∃ start, offset ≤ start ∧ reading.Sound chars start := by
  induction rest generalizing offset with
  | nil => cases found
  | cons char rest ih =>
    rw [resume?] at found
    split at found
    · rename_i first read
      cases found
      exact ⟨offset, Nat.le_refl _, read_sound stands read⟩
    · have one : 1 ≤ (char :: rest).length := by simp
      obtain ⟨start, later, sound⟩ := ih (stands.skip one) found
      exact ⟨start, Nat.le_of_succ_le later, sound⟩

structure Lays (chars : List Char) (start : Nat) (lexemes : List Lexeme) : Prop where
  behind : ∀ lexeme ∈ lexemes, start ≤ lexeme.span.start
  filled : ∀ lexeme ∈ lexemes, lexeme.span.start < lexeme.span.stop ∧
    lexeme.span.stop ≤ chars.length
  spelled : ∀ lexeme ∈ lexemes, lexeme.token.SpelledBy (lexeme.span.slice chars)
  apart : lexemes.Pairwise fun first second => first.span.stop ≤ second.span.start

theorem lays_nil (chars : List Char) (start : Nat) : Lays chars start [] :=
  ⟨by simp, by simp, by simp, .nil⟩

theorem Reading.Sound.lays {reading : Reading} {start earlier : Nat}
    (sound : reading.Sound chars start) (later : earlier ≤ start) {lexemes : List Lexeme}
    (rest : Lays chars reading.next.offset lexemes) :
    Lays chars earlier (reading.lexeme :: lexemes) := by
  have behind := sound.behind
  have filled := sound.filled
  have further := sound.further
  have inside := sound.next.inside
  constructor
  · intro lexeme member
    obtain rfl | member := List.mem_cons.mp member
    · omega
    · have := rest.behind lexeme member
      omega
  · intro lexeme member
    obtain rfl | member := List.mem_cons.mp member
    · omega
    · exact rest.filled lexeme member
  · intro lexeme member
    obtain rfl | member := List.mem_cons.mp member
    · exact sound.spelled
    · exact rest.spelled lexeme member
  · refine List.pairwise_cons.mpr ⟨?_, rest.apart⟩
    intro lexeme member
    have := rest.behind lexeme member
    omega

theorem readAll_lays (lines : LineTable) (fuel : Nat) (opened : Bool) {cursor : Cursor}
    (stands : cursor.Stands chars) {lexemes : List Lexeme}
    (read : (readAll lines opened fuel cursor).lexemes = some lexemes) :
    Lays chars cursor.offset lexemes := by
  induction fuel generalizing opened cursor lexemes with
  | zero =>
    cases read
    exact lays_nil _ _
  | succ fuel ih =>
    rw [readAll] at read
    split at read
    · cases read
      exact lays_nil _ _
    · rename_i left
      split at read
      · rename_i reading found
        obtain ⟨others, rest, rfl⟩ := Option.map_eq_some_iff.mp read
        have sound := read_sound stands found
        exact sound.lays (Nat.le_refl _) (ih _ sound.next rest)
      · split at read
        · rename_i reading found
          obtain ⟨others, rest, rfl⟩ := Option.map_eq_some_iff.mp read
          have one : 1 ≤ cursor.rest.length := by
            cases same : cursor.rest with
            | nil => simp [same] at left
            | cons => simp
          have after := stands.skip one
          simp only [Cursor.skip, List.drop_one] at after
          obtain ⟨start, later, sound⟩ := resume_sound after found
          exact sound.lays (by omega) (ih _ sound.next rest)
        · split at read <;> cases read

def Fills (chars : List Char) (start : Nat) (lexemes : List Lexeme) : Prop :=
  ∀ offset, start ≤ offset → offset < chars.length →
    (∀ lexeme ∈ lexemes, ¬ lexeme.span.Covers offset) →
    (∃ char, chars[offset]? = some char ∧ isBlank char) ∨
      ∃ comment : Span, IsComment chars comment ∧ comment.Covers offset ∧ start ≤ comment.start ∧
        ∀ lexeme ∈ lexemes, comment.Apart lexeme.span

theorem IsTrivia.fills {start middle : Nat} {lexemes : List Lexeme}
    (trivia : IsTrivia chars start middle) (ordered : start ≤ middle)
    (lays : Lays chars middle lexemes) (fills : Fills chars middle lexemes) :
    Fills chars start lexemes := by
  intro offset lower upper free
  by_cases early : offset < middle
  · obtain blank | ⟨comment, found, covers, after, before⟩ := trivia offset lower early
    · exact .inl blank
    · refine .inr ⟨comment, found, covers, after, ?_⟩
      intro lexeme member
      have := lays.behind lexeme member
      exact .inl (by omega)
  · obtain blank | ⟨comment, found, covers, after, apart⟩ := fills offset (by omega) upper free
    · exact .inl blank
    · exact .inr ⟨comment, found, covers, by omega, apart⟩

theorem Reading.Sound.fills {reading : Reading} {start : Nat} (sound : reading.Sound chars start)
    {lexemes : List Lexeme} (lays : Lays chars reading.next.offset lexemes)
    (fills : Fills chars reading.next.offset lexemes) :
    Fills chars start (reading.lexeme :: lexemes) := by
  have rest : Fills chars reading.lexeme.span.stop lexemes :=
    sound.after.fills sound.further lays fills
  have whole : Lays chars reading.lexeme.span.start (reading.lexeme :: lexemes) := by
    have all := sound.lays (Nat.le_refl _) lays
    refine ⟨?_, all.filled, all.spelled, all.apart⟩
    intro lexeme member
    obtain rfl | member := List.mem_cons.mp member
    · exact Nat.le_refl _
    · have filled := sound.filled
      have further := sound.further
      have := lays.behind lexeme member
      omega
  refine sound.before.fills sound.behind whole ?_
  intro offset lower upper free
  have outside := free reading.lexeme List.mem_cons_self
  have behind : reading.lexeme.span.stop ≤ offset := by
    by_contra inside
    exact outside ⟨lower, by omega⟩
  obtain blank | ⟨comment, found, covers, after, apart⟩ :=
    rest offset behind upper fun lexeme member => free lexeme (List.mem_cons_of_mem _ member)
  · exact .inl blank
  · have filled := sound.filled
    refine .inr ⟨comment, found, covers, by omega, ?_⟩
    intro lexeme member
    obtain rfl | member := List.mem_cons.mp member
    · exact .inr after
    · exact apart lexeme member

/-- Where no problem was found, the tokens and the trivia make up the text. -/
theorem readAll_fills (lines : LineTable) {fuel : Nat} (opened : Bool) {cursor : Cursor}
    (stands : cursor.Stands chars) (enough : cursor.rest.length < fuel) {lexemes : List Lexeme}
    (read : readAll lines opened fuel cursor = ⟨some lexemes, []⟩) :
    Fills chars cursor.offset lexemes := by
  induction fuel generalizing opened cursor lexemes with
  | zero => omega
  | succ fuel ih =>
    rw [readAll] at read
    split at read
    · rename_i done
      intro offset lower upper
      have all := stands.length_rest
      rw [List.isEmpty_iff.mp done] at all
      simp only [List.length_nil] at all
      omega
    · split at read
      · rename_i reading found
        have sound := read_sound stands found
        cases rest : readAll lines (opened || reading.opensComment) fuel reading.next with
        | mk others problems =>
          simp only [rest, Outcome.cons, List.nil_append, Outcome.mk.injEq,
            Option.map_eq_some_iff] at read
          obtain ⟨⟨others, rfl, rfl⟩, rfl⟩ := read
          have lays : Lays chars reading.next.offset others :=
            readAll_lays lines fuel _ sound.next (congrArg Outcome.lexemes rest)
          have before := stands.length_rest
          have after := sound.next.length_rest
          have behind := sound.behind
          have filled := sound.filled
          have further := sound.further
          exact sound.fills lays (ih _ sound.next (by omega) rest)
      · split at read
        · simp [Outcome.cons] at read
        · split at read <;> cases read

def written (tokens : List Token) : String := " ".intercalate (tokens.map Token.text)

theorem written_cons (token : Token) (tokens : List Token) :
    ∃ tail, (written (token :: tokens)).toList = token.text.toList ++ tail ∧ Ends tail ∧
      (written tokens).toList.length ≤ tail.length ∧ afterTrivia tail = afterTrivia
      (written tokens).toList := by
  cases tokens with
  | nil => exact ⟨[], by simp [written], .inl rfl, by simp [written], rfl⟩
  | cons second rest =>
    refine ⟨' ' :: (written (second :: rest)).toList, by simp [written], .inr ⟨_, rfl⟩, by simp, ?_⟩
    exact afterTrivia_of_blank (by decide) _

theorem afterTrivia_text {token : Token} (writable : token.IsWritable) {tail : List Char}
    (ends : Ends tail) :
    afterTrivia (token.text.toList ++ tail) = token.text.toList ++ tail := by
  obtain ⟨first, rest, same, visible, none⟩ := text_solid writable ends
  rw [same]
  exact afterTrivia_of_solid (by simp [visible]) none

theorem afterTrivia_written {tokens : List Token} (writable : ∀ token ∈ tokens, token.IsWritable) :
    afterTrivia (written tokens).toList = (written tokens).toList := by
  cases tokens with
  | nil => simp [written, afterTrivia]
  | cons token rest =>
    obtain ⟨tail, same, ends, _, _⟩ := written_cons token rest
    rw [same]
    exact afterTrivia_text (writable token List.mem_cons_self) ends

theorem read_text {token : Token} (writable : token.IsWritable) {tail : List Char}
    (ends : Ends tail) (offset : Nat) :
    ∃ reading, read? ⟨offset, token.text.toList ++ tail⟩ = some reading ∧
      reading.lexeme.token = token ∧
      reading.next.rest = afterTrivia tail := by
  simp only [read?, Cursor.skipTrivia, afterTrivia_text writable ends, token_text writable ends,
    Option.map_some]
  exact ⟨_, rfl, rfl, by simp [Cursor.skip]⟩

/-- Tokens that are written with blanks between them are read back. -/
theorem readAll_written (lines : LineTable) {tokens : List Token}
    (writable : ∀ token ∈ tokens, token.IsWritable) {fuel : Nat}
    (enough : (written tokens).toList.length < fuel) (opened : Bool) {cursor : Cursor}
    (here : cursor.rest = (written tokens).toList) :
    ∃ lexemes, readAll lines opened fuel cursor = ⟨some lexemes, []⟩ ∧ lexemes.map Lexeme.token =
      tokens := by
  induction tokens generalizing fuel opened cursor with
  | nil =>
    cases fuel with
    | zero => omega
    | succ fuel => exact ⟨[], by simp [readAll, here, written], rfl⟩
  | cons token rest ih =>
    have first := writable token List.mem_cons_self
    have others : ∀ other ∈ rest, other.IsWritable := fun other member =>
      writable other (List.mem_cons_of_mem _ member)
    obtain ⟨tail, same, ends, bound, behind⟩ := written_cons token rest
    have positive := (token_spelled (token_text first ends)).1
    obtain ⟨reading, found, spelled, next⟩ := read_text first ends cursor.offset
    rw [behind, afterTrivia_written others] at next
    rw [same] at here enough
    cases fuel with
    | zero => omega
    | succ fuel =>
      rw [List.length_append] at enough
      have shorter : (written rest).toList.length < fuel := by omega
      obtain ⟨lexemes, read, tokens⟩ := ih others shorter (opened || reading.opensComment) next
      refine ⟨reading.lexeme :: lexemes, ?_, by simp [spelled, tokens]⟩
      have left : cursor.rest.isEmpty = false := by
        rw [List.isEmpty_eq_false_iff, here, ← List.length_pos_iff, List.length_append]
        omega
      have start : cursor = ⟨cursor.offset, token.text.toList ++ tail⟩ := by rw [← here]
      rw [readAll, left, start, found]
      simp [read, Outcome.cons]

theorem stands_start (chars : List Char) : Cursor.Stands chars ⟨0, chars⟩ := ⟨rfl, Nat.zero_le _⟩

theorem run_lays {lines : LineTable} {lexemes : List Lexeme}
    (read : (run lines chars).lexemes = some lexemes) :
    Lays chars 0 lexemes := by
  obtain ⟨start, _, _⟩ := (stands_start chars).skipTrivia
  have lays := readAll_lays lines _ false start read
  exact ⟨fun _ _ => Nat.zero_le _, lays.filled, lays.spelled, lays.apart⟩

theorem run_written (lines : LineTable) {tokens : List Token}
    (writable : ∀ token ∈ tokens, token.IsWritable) :
    ∃ lexemes, run lines (written tokens).toList = ⟨some lexemes, []⟩ ∧ lexemes.map Lexeme.token =
      tokens := by
  have start : (Cursor.skipTrivia ⟨0, (written tokens).toList⟩).rest = (written tokens).toList :=
    afterTrivia_written writable
  exact readAll_written lines writable (Nat.lt_succ_self _) false start

theorem run_fills {lines : LineTable} {lexemes : List Lexeme}
    (read : run lines chars = ⟨some lexemes, []⟩) :
    Fills chars 0 lexemes := by
  obtain ⟨start, passed, trivia⟩ := (stands_start chars).skipTrivia
  have whole := start.length_rest
  have lays := readAll_lays lines _ false start (congrArg Outcome.lexemes read)
  exact trivia.fills passed lays (readAll_fills lines false start (by omega) read)

/-- The tokens of a text are read from separate stretches of it, one behind another, whose
characters spell them. If there is no problem, all else is blank or belongs to a comment. Tokens
that are written with blanks between them are read back without a problem. -/
theorem reads_spellings :
    (∀ (text : String) (lexemes : List Lexeme), (run (.ofText text) text.toList).lexemes =
      some lexemes →
      (∀ lexeme ∈ lexemes, lexeme.span.start < lexeme.span.stop ∧ lexeme.span.stop ≤ text.length ∧
        lexeme.token.SpelledBy (lexeme.span.slice text.toList)) ∧
      (lexemes.Pairwise fun first second =>
        first.span.start < second.span.start ∧ first.span.stop ≤ second.span.start) ∧
      ((run (.ofText text) text.toList).problems = [] →
        ∀ offset < text.length, (∀ lexeme ∈ lexemes, ¬ lexeme.span.Covers offset) →
          (∃ char, text.toList[offset]? = some char ∧ isBlank char) ∨
            ∃ comment, IsComment text.toList comment ∧ comment.Covers offset ∧
              ∀ lexeme ∈ lexemes, comment.Apart lexeme.span)) ∧
      ∀ tokens : List Token, (∀ token ∈ tokens, token.IsWritable) →
        ∃ lexemes, run (.ofText (written tokens)) (written tokens).toList = ⟨some lexemes, []⟩ ∧
          lexemes.map Lexeme.token = tokens := by
  constructor
  · intro text lexemes read
    have lays := run_lays read
    refine ⟨?_, ?_, ?_⟩
    · intro lexeme member
      obtain ⟨filled, inside⟩ := lays.filled lexeme member
      exact ⟨filled, by rwa [← String.length_toList], lays.spelled lexeme member⟩
    · refine lays.apart.imp_of_mem ?_
      intro first second member _ apart
      have := (lays.filled first member).1
      exact ⟨by omega, apart⟩
    · intro clean offset upper free
      have whole : run (.ofText text) text.toList = ⟨some lexemes, []⟩ := by
        rw [← read, ← clean]
      rw [← String.length_toList] at upper
      obtain blank | ⟨comment, found, covers, _, apart⟩ :=
        run_fills whole offset (Nat.zero_le _) upper free
      · exact .inl blank
      · exact .inr ⟨comment, found, covers, apart⟩
  · intro tokens writable
    exact run_written _ writable

/-- A text with separators, with `0x` that starts no number and with comments of both kinds, and
tokens that would be part of a comment without the blanks between them. -/
theorem reads_spellings_of_comments :
    (let text := "a /* b */ + 1_00 * 0xg // c"
      ∃ lexemes, (run (.ofText text) text.toList).lexemes = some lexemes ∧
        lexemes.map Lexeme.token =
          [.ident "a", .punct .plus, .int "100", .punct .star, .int "0", .ident "xg"] ∧
        (∀ lexeme ∈ lexemes, lexeme.token.SpelledBy (lexeme.span.slice text.toList)) ∧
        ∃ comment, IsComment text.toList comment ∧ comment.Covers 5 ∧ ∀ lexeme ∈ lexemes,
          comment.Apart lexeme.span) ∧
      ∃ lexemes, run (.ofText "/ / \"//\" / * 007") "/ / \"//\" / * 007".toList =
        ⟨some lexemes, []⟩ ∧
        lexemes.map Lexeme.token =
          [.punct .slash, .punct .slash, .str "//", .punct .slash, .punct .star, .int "007"] := by
  constructor
  · let lexemes : List Lexeme :=
      [⟨.ident "a", ⟨0, 1⟩⟩, ⟨.punct .plus, ⟨10, 11⟩⟩, ⟨.int "100", ⟨12, 16⟩⟩,
        ⟨.punct .star, ⟨17, 18⟩⟩, ⟨.int "0", ⟨19, 20⟩⟩, ⟨.ident "xg", ⟨20, 22⟩⟩]
    let text := "a /* b */ + 1_00 * 0xg // c"
    have read : (run (.ofText text) text.toList).lexemes = some lexemes := by decide +kernel
    have clean : (run (.ofText text) text.toList).problems = [] := by decide +kernel
    obtain ⟨each, _, rest⟩ := reads_spellings.1 text lexemes read
    refine ⟨lexemes, read, by decide, fun lexeme member => (each lexeme member).2.2, ?_⟩
    have free : ∀ lexeme ∈ lexemes, ¬ lexeme.span.Covers 5 := by
      unfold Span.Covers
      decide
    obtain ⟨char, found, blank⟩ | comment := rest clean 5 (by decide +kernel) free
    · have letter : text.toList[5]? = some 'b' := by decide +kernel
      rw [letter] at found
      cases found
      exact absurd blank (by decide)
    · exact comment
  · have writable :
      ∀ token ∈ [Token.punct .slash, .punct .slash, .str "//", .punct .slash, .punct .star,
        .int "007"],
        token.IsWritable := by
      simp [Token.IsWritable]
    have read := reads_spellings.2 _ writable
    have joined : written
      [.punct .slash, .punct .slash, .str "//", .punct .slash, .punct .star, .int "007"] =
        "/ / \"//\" / * 007" := by decide +kernel
    rwa [joined] at read

end Lexer

end Covenant
