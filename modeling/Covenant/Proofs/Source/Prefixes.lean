import Covenant.Proofs.Source.Lexing

/-!
Reading the first characters of a text. Where a text without problems is cut off outside of its
tokens and of its block comments, the tokens before that place are read from what is left of it. A
line comment may be cut off anywhere; its first character alone is read as a slash.
-/

namespace Covenant

/-- Whether an offset lies inside a span, behind its start and in front of its end. -/
def Span.Holds (span : Span) (offset : Nat) : Prop := span.start < offset ∧ offset < span.stop

instance (span : Span) (offset : Nat) : Decidable (span.Holds offset) :=
  inferInstanceAs (Decidable (span.start < offset ∧ offset < span.stop))

namespace Lexer

/-! What single parts of a text become when it is cut off behind them. -/

section Parts

variable {test : Char → Bool} {chars rest next : List Char} {count : Nat}

theorem cons_of_take {first : Char} {others : List Char}
    (starts : rest.take count = first :: others) :
    ∃ behind, rest = first :: behind ∧ others = behind.take (count - 1) := by
  cases rest with
  | nil => simp at starts
  | cons char behind =>
    cases count with
    | zero => simp at starts
    | succ count =>
      obtain ⟨rfl, rfl⟩ := List.cons.inj starts
      exact ⟨behind, rfl, rfl⟩

theorem takeWhile_take (bound : (rest.takeWhile test).length ≤ count) :
    (rest.take count).takeWhile test = rest.takeWhile test := by
  rw [← List.take_takeWhile, List.take_of_length_le bound]

theorem afterLine_take (chars : List Char) (count : Nat) :
    afterLine (chars.take count) = (afterLine chars).take
      (count - (chars.length - (afterLine chars).length)) := by
  induction chars generalizing count with
  | nil => simp [afterLine]
  | cons char rest ih =>
    cases count with
    | zero => simp [afterLine]
    | succ count =>
      have shorter := length_afterLine rest
      rw [List.take_succ_cons, afterLine, afterLine, List.length_cons]
      split
      · congr 1
        omega
      · rw [ih]
        congr 1
        omega

theorem afterBlock_take (closed : afterBlock? chars = some next)
    (past : chars.length ≤ count + next.length) :
    afterBlock? (chars.take count) = some (next.take (count - (chars.length - next.length))) := by
  induction chars using afterBlock?.induct generalizing count with
  | case1 tail =>
    cases closed
    rw [List.length_cons, List.length_cons] at past ⊢
    obtain ⟨more, rfl⟩ : ∃ more, count = more + 2 := ⟨count - 2, by omega⟩
    have left : more + 2 - (next.length + 1 + 1 - next.length) = more := by omega
    rw [List.take_succ_cons, List.take_succ_cons, afterBlock?, left]
  | case2 char tail early ih =>
    rw [afterBlock?.eq_2 _ _ early] at closed
    have shorter := length_afterBlock closed
    rw [List.length_cons] at past ⊢
    obtain ⟨more, rfl⟩ : ∃ more, count = more + 1 := ⟨count - 1, by omega⟩
    have later : ∀ others, char = '*' → tail.take more = '/' :: others → False := by
      intro others star slash
      obtain ⟨behind, whole, _⟩ := cons_of_take slash
      exact early behind star whole
    rw [List.take_succ_cons, afterBlock?.eq_2 _ _ later, ih closed (by omega)]
    congr 2
    omega
  | case3 => cases closed

theorem afterBlock_take_none (unclosed : afterBlock? chars = none) (count : Nat) :
    afterBlock? (chars.take count) = none := by
  induction chars using afterBlock?.induct generalizing count with
  | case1 tail => cases unclosed
  | case2 char tail early ih =>
    rw [afterBlock?.eq_2 _ _ early] at unclosed
    cases count with
    | zero => rfl
    | succ more =>
      have later : ∀ others, char = '*' → tail.take more = '/' :: others → False := by
        intro others star slash
        obtain ⟨behind, whole, _⟩ := cons_of_take slash
        exact early behind star whole
      rw [List.take_succ_cons, afterBlock?.eq_2 _ _ later]
      exact ih unclosed more
  | case3 => simp [afterBlock?]

theorem afterComment_take_none (solid : afterComment? chars = none) (count : Nat) :
    afterComment? (chars.take count) = none := by
  unfold afterComment?
  split
  · rename_i tail starts
    obtain ⟨behind, rfl, follows⟩ := cons_of_take starts
    obtain ⟨further, rfl, _⟩ := cons_of_take follows.symm
    cases solid
  · rename_i tail starts
    obtain ⟨behind, rfl, follows⟩ := cons_of_take starts
    obtain ⟨further, rfl, rfl⟩ := cons_of_take follows.symm
    exact afterBlock_take_none solid _
  · rfl

/-- A comment that the text still holds as a whole. -/
theorem afterComment_take (found : afterComment? chars = some next)
    (past : chars.length ≤ count + next.length) :
    afterComment? (chars.take count) = some (next.take (count - (chars.length - next.length))) := by
  have shorter := length_afterComment found
  unfold afterComment? at found
  split at found
  · rename_i tail
    cases found
    have bound := length_afterLine tail
    simp only [List.length_cons] at past ⊢
    obtain ⟨more, rfl⟩ : ∃ more, count = more + 2 := ⟨count - 2, by omega⟩
    rw [List.take_succ_cons, List.take_succ_cons, afterComment?, afterLine_take]
    congr 2
    omega
  · rename_i tail
    have bound := length_afterBlock found
    simp only [List.length_cons] at past ⊢
    obtain ⟨more, rfl⟩ : ∃ more, count = more + 2 := ⟨count - 2, by omega⟩
    rw [List.take_succ_cons, List.take_succ_cons, afterComment?, afterBlock_take found (by omega)]
    congr 2
    omega
  · cases found

theorem afterLine_take_inside (inside : count + (afterLine chars).length ≤ chars.length) :
    afterLine (chars.take count) = [] := by
  rw [afterLine_take, Nat.sub_eq_zero_of_le (by omega), List.take_zero]

theorem hex_take {rest : List Char} {token : Token} {width more : Nat}
    (read : token? ('0' :: 'x' :: rest) = some (token, width)) (past : width ≤ more + 1) :
    token? (('0' :: 'x' :: rest).take (more + 1)) = some (token, width) := by
  rw [token?.eq_2] at read
  cases more with
  | zero =>
    split at read
    · cases read
      rfl
    · cases read
      omega
  | succ more =>
    have fits : (rest.takeWhile isHexDigit).length ≤ more := by
      split at read
      · rename_i none
        rw [List.isEmpty_iff.mp none]
        exact Nat.zero_le _
      · cases read
        omega
    rw [List.take_succ_cons, List.take_succ_cons, token?.eq_2, takeWhile_take fits]
    exact read

theorem quoted_take {rest : List Char} {token : Token} {width more : Nat}
    (read : token? ('"' :: rest) = some (token, width)) (past : width ≤ more + 1) :
    token? (('"' :: rest).take (more + 1)) = some (token, width) := by
  rw [token?.eq_3] at read
  split at read
  · rename_i closed
    cases read
    have fits : (rest.takeWhile fun char => char != '"' && char != '\n').length ≤ more := by omega
    have quoted : ((rest.take more).drop
        (rest.takeWhile fun char => char != '"' && char != '\n').length).head? = some '"' := by
      rw [List.drop_take, List.head?_take, if_neg (by omega)]
      exact eq_of_beq closed
    rw [List.take_succ_cons, token?.eq_3, takeWhile_take fits, quoted]
    rfl
  · cases read

/-- A token that the text still holds as a whole. -/
theorem token_take {token : Token} {width : Nat} (read : token? chars = some (token, width))
    (past : width ≤ count) :
    token? (chars.take count) = some (token, width) := by
  have positive := (token_spelled read).1
  obtain ⟨more, rfl⟩ : ∃ more, count = more + 1 := ⟨count - 1, by omega⟩
  have whole := read
  unfold token? at read
  split at read
  · cases read
  · exact hex_take whole past
  · exact quoted_take whole past
  · rename_i char rest noHex noQuote
    have hex : ∀ others, char = '0' → rest.take more = 'x' :: others → False := by
      intro others zero starts
      obtain ⟨behind, whole, _⟩ := cons_of_take starts
      exact noHex behind zero whole
    rw [List.take_succ_cons, token?.eq_4 _ _ hex noQuote]
    split at read
    · rename_i digit
      rw [if_pos digit]
      cases read
      rw [takeWhile_take (by omega)]
    · rename_i digit
      rw [if_neg digit]
      split at read
      · rename_i starts
        rw [if_pos starts]
        cases read
        rw [takeWhile_take (by omega)]
      · rename_i starts
        rw [if_neg starts, List.head?_take]
        split at read
        · rename_i mark found
          cases read
          rw [if_neg (by omega), found]
        · rename_i unpaired
          have alone : (if more = 0 then none else rest.head?).bind
              (Punct.ofPair? char) = none := by
            split
            · rfl
            · exact unpaired
          rw [alone]
          exact read

end Parts

/-! How a text is made up. -/

def blockComments (offset : Nat) (chars : List Char) : List Span :=
  match chars with
  | [] => []
  | char :: rest =>
    if isBlank char then blockComments (offset + 1) rest
    else match _found : afterComment? (char :: rest) with
      | some next =>
        let stop := offset + ((char :: rest).length - next.length)
        let later := blockComments stop next
        if rest.head? == some '*' then ⟨offset, stop⟩ :: later else later
      | none =>
        let more := ((token? (char :: rest)).map Prod.snd).getD 1 - 1
        blockComments (offset + (more + 1)) (rest.drop more)
termination_by chars.length
decreasing_by
  · simp
  · exact length_afterComment _found
  · simp only [List.length_drop, List.length_cons]
    omega

inductive Scans : Nat → List Char → List Lexeme → Prop
  | done (offset) : Scans offset [] []
  | blank {offset char rest lexemes} : isBlank char = true → Scans (offset + 1) rest lexemes →
      Scans offset (char :: rest) lexemes
  | comment {offset char rest next lexemes} : ¬ isBlank char = true →
      afterComment? (char :: rest) = some next →
      Scans (offset + ((char :: rest).length - next.length)) next lexemes →
      Scans offset (char :: rest) lexemes
  | token {offset char rest token width lexemes} : ¬ isBlank char = true →
      afterComment? (char :: rest) = none →
      token? (char :: rest) = some (token, width) →
      Scans (offset + width) ((char :: rest).drop width) lexemes →
      Scans offset (char :: rest) (⟨token, ⟨offset, offset + width⟩⟩ :: lexemes)

namespace Scans

variable {offset : Nat} {chars : List Char} {lexemes : List Lexeme}

theorem behind (scans : Scans offset chars lexemes) :
    ∀ lexeme ∈ lexemes, offset ≤ lexeme.span.start := by
  induction scans with
  | done => simp
  | blank _ _ ih => exact fun lexeme member => Nat.le_of_succ_le (ih lexeme member)
  | comment _ _ _ ih => exact fun lexeme member => Nat.le_of_add_right_le (ih lexeme member)
  | token _ _ _ _ ih =>
    exact List.forall_mem_cons.mpr
      ⟨Nat.le_refl _, fun lexeme member => Nat.le_of_add_right_le (ih lexeme member)⟩

end Scans

theorem length_afterTrivia (chars : List Char) : (afterTrivia chars).length ≤ chars.length := by
  obtain ⟨width, _, _, measured⟩ := isTrivia_of_afterTrivia (List.drop_zero (l := chars))
  omega

theorem solid_of_afterTrivia {chars : List Char} {char : Char} {rest : List Char}
    (left : afterTrivia chars = char :: rest) :
    ¬ isBlank char = true ∧ afterComment? (char :: rest) = none := by
  induction chars using afterTrivia.induct with
  | case1 => simp [afterTrivia] at left
  | case2 first others blank ih => exact ih (afterTrivia_of_blank blank others ▸ left)
  | case3 first others visible next found ih =>
    exact ih (afterTrivia_of_comment visible found ▸ left)
  | case4 first others visible solid =>
    rw [afterTrivia_of_solid visible solid] at left
    obtain ⟨rfl, rfl⟩ := List.cons.inj left
    exact ⟨visible, solid⟩

theorem skipTrivia_blank {char : Char} (blank : isBlank char = true) (offset : Nat)
    (rest : List Char) :
    Cursor.skipTrivia ⟨offset, char :: rest⟩ = Cursor.skipTrivia ⟨offset + 1, rest⟩ := by
  have shorter := length_afterTrivia rest
  simp only [Cursor.skipTrivia, afterTrivia_of_blank blank, List.length_cons,
    Cursor.mk.injEq, and_true]
  omega

theorem skipTrivia_comment {char : Char} {rest next : List Char} (visible : ¬ isBlank char = true)
    (found : afterComment? (char :: rest) = some next) (offset : Nat) :
    Cursor.skipTrivia ⟨offset, char :: rest⟩ =
      Cursor.skipTrivia ⟨offset + ((char :: rest).length - next.length), next⟩ := by
  have shorter := length_afterTrivia next
  have further := length_afterComment found
  simp only [Cursor.skipTrivia, afterTrivia_of_comment visible found, Cursor.mk.injEq, and_true]
  omega

theorem skipTrivia_solid {char : Char} {rest : List Char} (visible : ¬ isBlank char = true)
    (solid : afterComment? (char :: rest) = none) (offset : Nat) :
    Cursor.skipTrivia ⟨offset, char :: rest⟩ = ⟨offset, char :: rest⟩ := by
  simp [Cursor.skipTrivia, afterTrivia_of_solid visible solid]

namespace Scans

variable {offset : Nat} {chars : List Char} {lexemes : List Lexeme}

theorem of_skipTrivia {cursor : Cursor}
    (scans : Scans cursor.skipTrivia.offset cursor.skipTrivia.rest lexemes) :
    Scans cursor.offset cursor.rest lexemes := by
  obtain ⟨offset, chars⟩ := cursor
  induction chars using afterTrivia.induct generalizing offset with
  | case1 => simpa [Cursor.skipTrivia, afterTrivia] using scans
  | case2 char rest blank ih =>
    rw [skipTrivia_blank blank] at scans
    exact .blank blank (ih _ scans)
  | case3 char rest visible next found ih =>
    rw [skipTrivia_comment visible found] at scans
    exact .comment visible found (ih _ scans)
  | case4 char rest visible solid =>
    rwa [skipTrivia_solid visible solid] at scans

theorem of_readAll {lines : LineTable} {fuel : Nat} {opened : Bool} {cursor : Cursor}
    (enough : cursor.rest.length < fuel)
    (read : readAll lines opened fuel cursor = ⟨some lexemes, []⟩) :
    Scans cursor.offset cursor.rest lexemes := by
  induction fuel generalizing opened cursor lexemes with
  | zero => omega
  | succ fuel ih =>
    rw [readAll] at read
    split at read
    · rename_i done
      cases read
      rw [List.isEmpty_iff.mp done]
      exact .done _
    · split at read
      · rename_i reading found
        cases behind : readAll lines (opened || reading.opensComment) fuel reading.next with
        | mk others problems =>
          simp only [behind, Outcome.cons, List.nil_append, Outcome.mk.injEq,
            Option.map_eq_some_iff] at read
          obtain ⟨⟨others, rfl, rfl⟩, rfl⟩ := read
          refine of_skipTrivia ?_
          simp only [read?, Option.map_eq_some_iff] at found
          obtain ⟨⟨token, width⟩, taken, rfl⟩ := found
          obtain ⟨positive, fits, _⟩ := token_spelled taken
          have shorter : cursor.skipTrivia.rest.length ≤ cursor.rest.length := length_afterTrivia _
          have least := length_afterTrivia (cursor.skipTrivia.rest.drop width)
          rw [List.length_drop] at least
          have rest : Scans (cursor.skipTrivia.skip width).offset
              (cursor.skipTrivia.skip width).rest others := by
            refine of_skipTrivia (ih ?_ behind)
            change (afterTrivia (cursor.skipTrivia.rest.drop width)).length < fuel
            omega
          cases left : cursor.skipTrivia.rest with
          | nil =>
            rw [left] at taken
            cases taken
          | cons char more =>
            obtain ⟨visible, solid⟩ := solid_of_afterTrivia left
            rw [left] at taken
            simp only [Cursor.skip, left] at rest
            exact .token visible solid taken rest
      · split at read
        · simp [Outcome.cons] at read
        · split at read <;> cases read

theorem readAll (scans : Scans offset chars lexemes) (lines : LineTable) (opened : Bool)
    {fuel : Nat} (enough : chars.length < fuel) :
    Lexer.readAll lines opened fuel (Cursor.skipTrivia ⟨offset, chars⟩) = ⟨some lexemes, []⟩ := by
  induction scans generalizing opened fuel with
  | done offset =>
    cases fuel with
    | zero => omega
    | succ fuel => simp [Lexer.readAll, Cursor.skipTrivia, afterTrivia]
  | blank blank _ ih =>
    rw [skipTrivia_blank blank]
    exact ih opened (Nat.lt_of_succ_lt enough)
  | comment visible found _ ih =>
    rw [skipTrivia_comment visible found]
    exact ih opened (Nat.lt_trans (length_afterComment found) enough)
  | @token offset char rest token width lexemes visible solid taken _ ih =>
    obtain ⟨positive, fits, _⟩ := token_spelled taken
    cases fuel with
    | zero => omega
    | succ fuel =>
      have shorter : ((char :: rest).drop width).length < fuel := by
        rw [List.length_drop]
        omega
      have behind := ih (opened || (char :: rest).take 2 == ['/', '*']) shorter
      rw [skipTrivia_solid visible solid, Lexer.readAll]
      simp only [List.isEmpty_cons, Bool.false_eq_true, if_false, read?,
        skipTrivia_solid visible solid, taken, Option.map_some, Cursor.skip, behind]
      rfl

end Scans

theorem run_eq_iff {lines : LineTable} {chars : List Char} {lexemes : List Lexeme} :
    run lines chars = ⟨some lexemes, []⟩ ↔ Scans 0 chars lexemes := by
  constructor
  · intro read
    have enough : (Cursor.skipTrivia ⟨0, chars⟩).rest.length < chars.length + 1 :=
      Nat.lt_succ_of_le (length_afterTrivia chars)
    exact (Scans.of_readAll enough read).of_skipTrivia
  · exact fun scans => scans.readAll lines false (Nat.lt_succ_self _)

theorem readAll_isSome {lines : LineTable} {opened : Bool} {fuel : Nat} {cursor : Cursor}
    (clean : (readAll lines opened fuel cursor).problems = []) :
    (readAll lines opened fuel cursor).lexemes.isSome := by
  induction fuel generalizing opened cursor with
  | zero => rfl
  | succ fuel ih =>
    rw [readAll] at clean ⊢
    split
    · rfl
    · rename_i goes
      rw [if_neg goes] at clean
      split at clean
      · simpa [Outcome.cons] using ih clean
      · split at clean
        · simp [Outcome.cons] at clean
        · split at clean <;> cases clean

theorem run_of_no_problems {lines : LineTable} {chars : List Char}
    (clean : (run lines chars).problems = []) :
    ∃ lexemes, run lines chars = ⟨some lexemes, []⟩ := by
  have given : (run lines chars).lexemes.isSome := readAll_isSome clean
  cases read : run lines chars with
  | mk found problems =>
    rw [read] at clean given
    obtain ⟨lexemes, rfl⟩ := Option.isSome_iff_exists.mp given
    obtain rfl : problems = [] := clean
    exact ⟨lexemes, rfl⟩

/-! Cutting off a text. -/

section BlockComments

variable {offset : Nat} {char : Char} {rest next : List Char}

theorem blockComments_blank (blank : isBlank char = true) :
    blockComments offset (char :: rest) = blockComments (offset + 1) rest := by
  rw [blockComments, if_pos blank]

theorem mem_blockComments_of_comment (visible : ¬ isBlank char = true)
    (found : afterComment? (char :: rest) = some next) {comment : Span}
    (later : comment ∈ blockComments (offset + ((char :: rest).length - next.length)) next) :
    comment ∈ blockComments offset (char :: rest) := by
  rw [blockComments, if_neg visible]
  split
  · rename_i other same
    obtain rfl := Option.some.inj (same.symm.trans found)
    dsimp only
    split
    · exact List.mem_cons_of_mem _ later
    · exact later
  · rename_i solid
    rw [found] at solid
    cases solid

theorem blockComments_block {rest : List Char} (closed : afterBlock? rest = some next) :
    ⟨offset, offset + (('/' :: '*' :: rest).length - next.length)⟩ ∈ blockComments offset
      ('/' :: '*' :: rest) := by
  have visible : ¬ isBlank '/' = true := by decide
  have found : afterComment? ('/' :: '*' :: rest) = some next := closed
  rw [blockComments, if_neg visible]
  split
  · rename_i other same
    obtain rfl := Option.some.inj (same.symm.trans found)
    exact List.mem_cons_self
  · rename_i solid
    rw [found] at solid
    cases solid

theorem blockComments_token {token : Token} {width : Nat} (visible : ¬ isBlank char = true)
    (solid : afterComment? (char :: rest) = none)
    (taken : token? (char :: rest) = some (token, width)) :
    blockComments offset (char :: rest) = blockComments (offset + width)
      ((char :: rest).drop width) := by
  obtain ⟨more, rfl⟩ : ∃ more, width = more + 1 :=
    ⟨width - 1, by have := (token_spelled taken).1; omega⟩
  rw [blockComments, if_neg visible]
  split
  · rename_i other found
    rw [solid] at found
    cases found
  · simp [taken]

end BlockComments

structure CutsAt (offset : Nat) (left : List Char) (cut : Nat) (lexemes early late : List Lexeme) :
    Prop where
  split : lexemes = early ++ late
  before : ∀ lexeme ∈ early, lexeme.span.stop ≤ cut
  behind : ∀ lexeme ∈ late, cut ≤ lexeme.span.start
  scans : Scans offset left early ∨ ∃ span, Scans offset left (early ++ [⟨.punct .slash, span⟩])

namespace CutsAt

variable {offset cut : Nat} {left : List Char} {lexemes early late : List Lexeme}

theorem enter (cuts : CutsAt offset left cut lexemes early late) {start : Nat} {chars : List Char}
    (more : ∀ lexemes, Scans offset left lexemes → Scans start chars lexemes) :
    CutsAt start chars cut lexemes early late :=
  ⟨cuts.split, cuts.before, cuts.behind, cuts.scans.imp (more early) fun ⟨span, scans⟩ =>
    ⟨span, more _ scans⟩⟩

theorem cons (cuts : CutsAt offset left cut lexemes early late) {start : Nat} {chars : List Char}
    {lexeme : Lexeme} (inside : lexeme.span.stop ≤ cut)
    (more : ∀ lexemes, Scans offset left lexemes → Scans start chars (lexeme :: lexemes)) :
    CutsAt start chars cut (lexeme :: lexemes) (lexeme :: early) late :=
  ⟨congrArg (lexeme :: ·) cuts.split, List.forall_mem_cons.mpr ⟨inside, cuts.before⟩, cuts.behind,
    cuts.scans.imp (more early) fun ⟨span, scans⟩ => ⟨span, more _ scans⟩⟩

end CutsAt

namespace Scans

variable {offset : Nat} {chars : List Char} {lexemes : List Lexeme}

theorem cuts_line {rest : List Char} {count : Nat} (positive : count ≠ 0)
    (inside : count + (afterLine rest).length < rest.length + 2) (offset : Nat) :
    Scans offset (('/' :: '/' :: rest).take count) [] ∨
      ∃ span, Scans offset (('/' :: '/' :: rest).take count) [⟨.punct .slash, span⟩] := by
  have visible : ¬ isBlank '/' = true := by decide
  match count with
  | 0 => exact absurd rfl positive
  | 1 => exact .inr ⟨_, .token visible rfl rfl (.done _)⟩
  | count + 2 =>
    have nothing : afterComment? ('/' :: '/' :: rest.take count) = some [] :=
      congrArg some (afterLine_take_inside (by omega))
    exact .inl (.comment visible nothing (.done _))

theorem cuts_comment {char : Char} {rest next : List Char} {count : Nat}
    (found : afterComment? (char :: rest) = some next) (positive : count ≠ 0)
    (inside : ¬ (char :: rest).length ≤ count + next.length)
    (behind : ∀ lexeme ∈ lexemes,
      offset + ((char :: rest).length - next.length) ≤ lexeme.span.start)
    (clear : ∀ comment ∈ blockComments offset (char :: rest), ¬ comment.Holds (offset + count)) :
    CutsAt offset ((char :: rest).take count) (offset + count) lexemes [] lexemes := by
  have later : ∀ lexeme ∈ lexemes, offset + count ≤ lexeme.span.start := fun lexeme member => by
    have start := behind lexeme member
    omega
  have shape := found
  unfold afterComment? at shape
  split at shape
  · rename_i tail same
    obtain rfl := Option.some.inj shape
    have short : count + (afterLine tail).length < tail.length + 2 := by
      simp only [same, List.length_cons] at inside
      omega
    rw [same]
    exact ⟨rfl, by simp, later, cuts_line positive short offset⟩
  · rename_i tail same
    rw [same] at clear inside
    exact absurd ⟨by simp only; omega, by simp only; omega⟩ (clear _ (blockComments_block shape))
  · cases shape

/-- A text without problems may be cut off anywhere but inside its tokens and its block comments. -/
theorem cuts (scans : Scans offset chars lexemes) {count : Nat} (within : count ≤ chars.length)
    (apart : ∀ lexeme ∈ lexemes, ¬ lexeme.span.Holds (offset + count))
    (clear : ∀ comment ∈ blockComments offset chars, ¬ comment.Holds (offset + count)) :
    ∃ early late, CutsAt offset (chars.take count) (offset + count) lexemes early late := by
  induction scans generalizing count with
  | done offset => exact ⟨[], [], rfl, by simp, by simp, .inl (by simpa using Scans.done offset)⟩
  | @blank offset char rest lexemes blank scans ih =>
    cases count with
    | zero =>
      exact ⟨[], lexemes, rfl, by simp, (Scans.blank blank scans).behind, .inl (.done offset)⟩
    | succ count =>
      have moved : offset + (count + 1) = offset + 1 + count := by omega
      rw [moved] at apart clear ⊢
      rw [blockComments_blank blank] at clear
      obtain ⟨early, late, cuts⟩ := ih (Nat.le_of_succ_le_succ within) apart clear
      exact ⟨early, late, cuts.enter fun _ => .blank blank⟩
  | @comment offset char rest next lexemes visible found scans ih =>
    have shorter := length_afterComment found
    by_cases empty : count = 0
    · subst empty
      exact ⟨[], lexemes, rfl, by simp, (Scans.comment visible found scans).behind,
        .inl (.done offset)⟩
    by_cases past : (char :: rest).length ≤ count + next.length
    · obtain ⟨more, rfl⟩ : ∃ more, count = (char :: rest).length - next.length + more :=
        ⟨count - ((char :: rest).length - next.length), by omega⟩
      have moved : offset + ((char :: rest).length - next.length + more) =
          offset + ((char :: rest).length - next.length) + more := by omega
      rw [moved] at apart clear ⊢
      obtain ⟨early, late, cuts⟩ := ih (by omega) apart
        fun comment member => clear comment (mem_blockComments_of_comment visible found member)
      refine ⟨early, late, cuts.enter fun others left => ?_⟩
      have passed := afterComment_take found past
      rw [Nat.add_sub_cancel_left] at passed
      have length : ((char :: rest).take ((char :: rest).length - next.length + more)).length -
          (next.take more).length =
          (char :: rest).length - next.length := by
        simp only [List.length_take]
        omega
      rw [← length] at left
      rw [List.take_cons (by omega)] at passed left ⊢
      exact .comment visible passed left
    · exact ⟨[], lexemes, cuts_comment found empty past scans.behind clear⟩
  | @token offset char rest token width lexemes visible solid taken scans ih =>
    obtain ⟨positive, fits, _⟩ := token_spelled taken
    by_cases empty : count = 0
    · subst empty
      exact ⟨[], _, rfl, by simp, (Scans.token visible solid taken scans).behind,
        .inl (.done offset)⟩
    have past : width ≤ count := by
      have outside := apart _ List.mem_cons_self
      simp only [Span.Holds] at outside
      omega
    obtain ⟨more, rfl⟩ : ∃ more, count = width + more := ⟨count - width, by omega⟩
    have moved : offset + (width + more) = offset + width + more := by omega
    rw [moved] at apart clear ⊢
    rw [blockComments_token visible solid taken] at clear
    rw [List.forall_mem_cons] at apart
    have left : ((char :: rest).drop width).length = (char :: rest).length - width :=
      List.length_drop
    obtain ⟨early, late, cuts⟩ := ih (by omega) apart.2 clear
    refine ⟨_, late, cuts.cons (Nat.le_add_right _ _) fun others left => ?_⟩
    have again := token_take taken (Nat.le_add_right width more)
    have still := afterComment_take_none solid (width + more)
    have remains : ((char :: rest).take (width + more)).drop width =
        ((char :: rest).drop width).take more := by
      rw [List.drop_take, Nat.add_sub_cancel_left]
    rw [← remains] at left
    rw [List.take_cons (by omega)] at again still left ⊢
    exact .token visible still again left

end Scans

end Lexer

end Covenant
