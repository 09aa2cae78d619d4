import Verbatim.Proofs.Failure.Final
import Verbatim.Proofs.Lines.Physical
import Mathlib.Data.List.DropRight

/-! # Positions

Where a token stands is told by the tokens before it: the line by those that end one, the column by
the characters since the last of these, and the indentation by the first token of the line. So the
positions of the tokens of a text ascend, and no two tokens have the same.
-/

namespace Verbatim

open Token (Kind lineEnds)

theorem Position.compare_eq_lt_iff {p q : Position} :
    compare p q = .lt ↔ p.line < q.line ∨ p.line = q.line ∧ p.column < q.column := by
  show (compare p.line q.line).then ((compare p.column q.column).then .eq) = .lt ↔ _
  rw [Ordering.then_eq, Ordering.then_eq_lt, Nat.compare_eq_lt, Nat.compare_eq_eq,
    Nat.compare_eq_lt]

namespace Token

def openRow (ts : List Token) : List Token :=
  ts.rtakeWhile (·.kind ≠ .newline)

/-- The width of the whitespace with which a row begins. -/
def leadingWidth (row : List Token) : Nat :=
  match row.head? with
  | some t => if t.kind = .whitespace then t.sourceText.length else 0
  | none => 0

/-- The token has the place and the indentation that it must have behind the tokens `before`. -/
structure StandsBehind (before : List Token) (t : Token) : Prop where
  line_eq : t.line = lineEnds before
  column_eq : t.column = 1 + (detokenize (openRow before)).length
  indent_eq : t.indent = leadingWidth (openRow before ++ [t])

variable {before ts mid : List Token} {t u : Token}

theorem openRow_concat (ts : List Token) (t : Token) :
    openRow (ts ++ [t]) = if t.kind = .newline then [] else openRow ts ++ [t] := by
  simp [openRow, List.rtakeWhile_concat]

theorem openRow_append (h : ∀ t ∈ mid, t.kind ≠ .newline) :
    openRow (ts ++ mid) = openRow ts ++ mid := by
  have hmid : ∀ t ∈ mid.reverse, decide (t.kind ≠ .newline) = true := by simpa using h
  rw [openRow, List.rtakeWhile, List.reverse_append, List.takeWhile_append_of_pos hmid,
    List.reverse_append, List.reverse_reverse]
  rfl

theorem StandsBehind.lt (ht : t.StandsBehind before) (hu : u.StandsBehind (before ++ t :: mid))
    (hne : t.sourceText ≠ "") : compare t.position u.position = .lt := by
  rw [Position.compare_eq_lt_iff]
  have hline := hu.line_eq
  rw [lineEnds_append, ← ht.line_eq] at hline
  by_cases hends : lineEnds (t :: mid) = 0
  · right
    have hrow : ∀ v ∈ t :: mid, v.kind ≠ .newline := by
      simpa [lineEnds] using hends
    have hcolumn := hu.column_eq
    rw [openRow_append hrow, detokenize_append, detokenize_cons, String.length_append,
      String.length_append] at hcolumn
    have hcolumn' := ht.column_eq
    have : t.sourceText.length ≠ 0 := by simpa using hne
    simp only [position]
    omega
  · left
    simp only [position]
    omega

end Token

open Token (openRow leadingWidth)

namespace Cursor

/-- The cursor has cut the tokens `before` and has kept the books on them. -/
structure Behind (before : List Token) (c : Cursor) : Prop where
  line_eq : c.line = lineEnds before
  column_eq : c.column = 1 + (detokenize (openRow before)).length
  indent_eq : c.indent = leadingWidth (openRow before)
  ne_empty : ∀ t ∈ before, t.sourceText ≠ ""

variable {c : Cursor} {before front back : List Token} {t : Token}

theorem behind_ofString (source : String) : (ofString source).Behind [] :=
  ⟨rfl, rfl, rfl, by simp⟩

theorem length_sourceText_nextToken (hf : ¬ c.finished) :
    c.nextToken.1.sourceText.length = (Lexeme.first c.rest).2 := by
  have hr : c.rest ≠ [] := by simpa [finished] using hf
  rw [sourceText_nextToken hf, String.length_ofList,
    List.length_take_of_le (Lexeme.first_length_le hr)]

theorem column_eq_nextToken (c : Cursor) : c.nextToken.1.column = c.column := by
  rw [nextToken_eq_consume]
  unfold consume
  dsimp only
  split <;> rfl

theorem column_nextToken (hf : ¬ c.finished) : c.nextToken.2.column =
    if c.nextToken.1.kind = .newline then 1 else c.column + c.nextToken.1.sourceText.length := by
  rw [length_sourceText_nextToken hf, nextToken_eq_consume, kind_consume]
  unfold consume
  dsimp only
  split <;> rfl

theorem indent_eq_nextToken (hf : ¬ c.finished) : c.nextToken.1.indent =
    if c.column = 1 ∧ c.nextToken.1.kind = .whitespace then c.nextToken.1.sourceText.length
    else c.indent := by
  rw [length_sourceText_nextToken hf, nextToken_eq_consume, kind_consume]
  unfold consume
  dsimp only
  split <;> rfl

theorem indent_nextToken (c : Cursor) : c.nextToken.2.indent =
    if c.nextToken.1.kind = .newline then 0 else c.nextToken.1.indent := by
  rw [nextToken_eq_consume, kind_consume]
  unfold consume
  dsimp only
  split <;> rfl

namespace Behind

theorem column_eq_one_iff (h : c.Behind before) : c.column = 1 ↔ openRow before = [] := by
  rw [h.column_eq]
  cases hr : openRow before with
  | nil => simp
  | cons t row =>
    have ht : t ∈ before := (List.rtakeWhile_suffix _ _).mem (hr ▸ List.mem_cons_self)
    simp [h.ne_empty t ht]

theorem standsBehind (h : c.Behind before) (hf : ¬ c.finished) :
    c.nextToken.1.StandsBehind before where
  line_eq := c.line_eq_nextToken.trans h.line_eq
  column_eq := c.column_eq_nextToken.trans h.column_eq
  indent_eq := by
    rw [indent_eq_nextToken hf, h.indent_eq]
    simp only [h.column_eq_one_iff]
    cases openRow before <;> simp [leadingWidth]

theorem nextToken (h : c.Behind before) (hf : ¬ c.finished) :
    c.nextToken.2.Behind (before ++ [c.nextToken.1]) where
  line_eq := by rw [line_nextToken, h.line_eq, Token.lineEnds_append]; simp [Token.lineEnds_cons]
  column_eq := by
    rw [column_nextToken hf, Token.openRow_concat, h.column_eq]
    split_ifs
    · rfl
    · simp [Nat.add_assoc]
  indent_eq := by
    rw [indent_nextToken, Token.openRow_concat, (h.standsBehind hf).indent_eq]
    split_ifs <;> rfl
  ne_empty := by
    refine List.forall_mem_append.mpr ⟨h.ne_empty, ?_⟩
    have hpos := Lexeme.first_length_pos c.rest
    rw [← length_sourceText_nextToken hf] at hpos
    simpa [Nat.pos_iff_ne_zero] using hpos

theorem standsBehind_of_tokens_eq (h : c.Behind before) (he : c.tokens = front ++ t :: back) :
    t.StandsBehind (before ++ front) := by
  induction front generalizing c before with
  | nil =>
    obtain ⟨hf, rfl, -⟩ := nextToken_of_tokens_eq he
    rw [List.append_nil]
    exact h.standsBehind hf
  | cons u front ih =>
    obtain ⟨hf, rfl, hnext⟩ := nextToken_of_tokens_eq he
    rw [List.append_cons]
    exact ih (h.nextToken hf) hnext

theorem pairwise_position {c : Cursor} {before : List Token} (h : c.Behind before) :
    c.tokens.Pairwise fun t u => compare t.position u.position = .lt := by
  by_cases hf : c.finished
  · rw [c.tokens_of_finished hf]
    exact .nil
  · have hnext := h.nextToken hf
    rw [c.tokens_of_not_finished hf]
    refine List.pairwise_cons.mpr ⟨fun u hu => ?_, hnext.pairwise_position⟩
    obtain ⟨mid, back, he⟩ := List.append_of_mem hu
    have hu := hnext.standsBehind_of_tokens_eq he
    rw [← List.append_cons] at hu
    exact (h.standsBehind hf).lt hu (hnext.ne_empty _ (by simp))
termination_by c.rest.length
decreasing_by exact c.length_rest_nextToken_lt ‹_›

end Behind

end Cursor

theorem position_ne_of_tokenize {source : String} {front back : List Token} {t : Token}
    (h : tokenize source = front ++ t :: back) : ∀ u ∈ front ++ back, u.position ≠ t.position := by
  have hp := (Cursor.behind_ofString source).pairwise_position
  rw [show (Cursor.ofString source).tokens = front ++ t :: back from h, List.pairwise_append,
    List.pairwise_cons] at hp
  obtain ⟨-, ⟨hback, -⟩, hfront⟩ := hp
  have hne {p q : Position} (hlt : compare p q = .lt) : p ≠ q := by
    rintro rfl
    rw [Position.compare_eq_lt_iff] at hlt
    omega
  refine List.forall_mem_append.mpr ⟨fun u hu => ?_, fun u hu => ?_⟩
  · exact hne (hfront u hu t List.mem_cons_self)
  · exact (hne (hback u hu)).symm

theorem Block.exists_token_of_error {ops : Operators} {tokens : List Token} {e : ParseError}
    (h : parse { operators := ops } tokens = .error e) (hp : e.position ≠ ⟨0, 0⟩) :
    ∃ front t back, tokens = front ++ t :: back ∧ t.position = e.position := by
  obtain ⟨stack, c, hr, hc⟩ :=
    Grammar.program_eq_error_iff.mp (parse_eq_error_iff.mp h)
  obtain ⟨xs, t, after, hstream, ht, hn, -⟩ :=
    hc.onStream hr (Grammar.allows_maxDepth_iff.mpr (by decide)) hp
  obtain ⟨before, hbefore, -⟩ := hr.onStream ht hstream
  refine ⟨before, t, after, hbefore, ?_⟩
  rcases hn with rfl | ⟨limit, -, rfl⟩ <;> rfl

/-- Each token of a text has the line, column and indentation that the tokens before it give it. So
the positions ascend, and the position in an error at a token is that of no other token. -/
theorem standsBehind_tokenize (source : String) :
    (∀ front t back, tokenize source = front ++ t :: back → t.StandsBehind front) ∧
    (tokenize source).Pairwise (fun t u => compare t.position u.position = .lt) ∧
    ∀ (ops : Operators) (e : ParseError),
      Block.parse { operators := ops } (tokenize source) = .error e → e.position ≠ ⟨0, 0⟩ →
      ∃ front t back, tokenize source = front ++ t :: back ∧ t.position = e.position ∧
        ∀ u ∈ front ++ back, u.position ≠ e.position := by
  have h := Cursor.behind_ofString source
  refine ⟨fun front t back he => h.standsBehind_of_tokens_eq he, h.pairwise_position, ?_⟩
  intro ops e he hp
  obtain ⟨front, t, back, htokens, ht⟩ := Block.exists_token_of_error he hp
  exact ⟨front, t, back, htokens, ht, ht ▸ position_ne_of_tokenize htokens⟩

/-- A comment with a character of two bytes, then an indented line on which no expression starts. -/
theorem standsBehind_tokenize_indented :
    let source := "f() // é\n  'x\ny' g"
    let t : Token := ⟨.singleQuoted, ⟨12, 17⟩, 1, 3, 2, some "'x\ny'"⟩
    let front := tokenize "f() // é\n  "
    let e : ParseError := .noProduction .singleQuoted "'x\ny'" ⟨1, 3⟩
    (∃ back, tokenize source = front ++ t :: back ∧ t.StandsBehind front) ∧
    Block.parse {} (tokenize source) = .error e ∧ e.position ≠ ⟨0, 0⟩ ∧
      ∃ front t back, tokenize source = front ++ t :: back ∧ t.position = e.position ∧
        ∀ u ∈ front ++ back, u.position ≠ e.position := by
  intro source t front e
  obtain ⟨hstands, -, herror⟩ := standsBehind_tokenize source
  have ht : tokenize source = front ++ t :: (tokenize source).drop 8 := by decide +kernel
  have he : Block.parse {} (tokenize source) = .error e :=
    eq_error_of_map (f := fun _ => ()) (by decide +kernel)
  have hp : e.position ≠ ⟨0, 0⟩ := by decide
  exact ⟨⟨_, ht, hstands _ _ _ ht⟩, he, hp, herror .empty e he hp⟩

end Verbatim
