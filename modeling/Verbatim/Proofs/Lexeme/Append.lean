import Verbatim.Proofs.Lexeme.Spans

/-! # Texts one after the other

Where a token ends the line, cutting starts anew: it does not see what comes after this token, nor
afterwards what came before. So a text can be cut in parts that end so, and the tokens of each part
are then moved behind those of the parts before it.
-/

namespace Verbatim

open Token (Kind)

/-- A range of bytes in a text that `n` bytes were put before. -/
def Span.shift (n : Nat) (s : Span) : Span :=
  ⟨n + s.start, n + s.stop⟩

/-- A token of a text that some bytes and lines were put before. -/
def Token.shift (bytes lines : Nat) (t : Token) : Token :=
  { t with span := t.span.shift bytes, line := lines + t.line }

namespace Lexeme

variable {kind : Kind} {cs rest more : List Char}

theorem Stops.append (h : rest ≠ []) (hs : Stops kind cs rest) : Stops kind cs (rest ++ more) := by
  obtain ⟨c, rest, rfl⟩ := List.exists_cons_of_ne_nil h
  cases kind <;> exact hs

theorem first_append (h : cs ≠ [])
    (hs : cs.drop (first cs).2 ≠ [] ∨ (first cs).1 = .newline) : first (cs ++ more) = first cs := by
  obtain ⟨hw, ht⟩ := spells_take_first h
  have hlen : (cs.take (first cs).2).length = (first cs).2 :=
    List.length_take_of_le (first_length_le h)
  have ht : Stops (first cs).1 (cs.take (first cs).2) (cs.drop (first cs).2 ++ more) := by
    rcases hs with hs | hs
    · exact ht.append hs
    · rw [hs]
      trivial
  have hfirst := (first_append_eq_iff (ne_nil_of_spells hw)).mpr ⟨hw, ht⟩
  rwa [← List.append_assoc, List.take_append_drop, hlen] at hfirst

end Lexeme

namespace Cursor

def followedBy (more : List Char) (c : Cursor) : Cursor :=
  { c with rest := c.rest ++ more }

/-- The same place in a text that some bytes and lines were put before. -/
def shift (bytes lines : Nat) (c : Cursor) : Cursor :=
  { c with position := bytes + c.position, line := lines + c.line }

/-- What the bookkeeping of columns and indentation is like before anything is cut. -/
structure AtLineStart (c : Cursor) : Prop where
  column_eq : c.column = 1
  indent_eq : c.indent = 0

variable {c : Cursor} {kind : Kind} {n bytes lines : Nat} {saveText : Bool} {more : List Char}

theorem consume_shift : (c.shift bytes lines).consume kind n saveText =
    ((c.consume kind n saveText).1.shift bytes lines,
      (c.consume kind n saveText).2.shift bytes lines) := by
  unfold consume
  dsimp only
  split <;> simp [shift, advance, Token.shift, Span.shift, Nat.add_assoc] <;> rfl

theorem nextToken_shift : (c.shift bytes lines).nextToken =
    (c.nextToken.1.shift bytes lines, c.nextToken.2.shift bytes lines) :=
  consume_shift

theorem tokens_shift (c : Cursor) :
    (c.shift bytes lines).tokens = c.tokens.map (Token.shift bytes lines) := by
  by_cases hf : c.finished
  · rw [tokens_of_finished c hf]
    exact tokens_of_finished _ hf
  · have hs : ¬ (c.shift bytes lines).finished := hf
    rw [tokens_of_not_finished c hf, tokens_of_not_finished _ hs, nextToken_shift,
      tokens_shift c.nextToken.2]
    rfl
termination_by c.rest.length
decreasing_by exact c.length_rest_nextToken_lt ‹_›

theorem consume_followedBy (h : n ≤ c.rest.length) : (c.followedBy more).consume kind n saveText =
    ((c.consume kind n saveText).1, (c.consume kind n saveText).2.followedBy more) := by
  unfold consume
  dsimp only
  split <;> simp [followedBy, advance, List.take_append_of_le_length h,
    List.drop_append_of_le_length h] <;> rfl

theorem nextToken_followedBy (hf : ¬ c.finished)
    (hs : ¬ c.nextToken.2.finished ∨ c.nextToken.1.kind = .newline) :
    (c.followedBy more).nextToken = (c.nextToken.1, c.nextToken.2.followedBy more) := by
  have hr : c.rest ≠ [] := by simpa [finished] using hf
  have hs : c.rest.drop (Lexeme.first c.rest).2 ≠ [] ∨ (Lexeme.first c.rest).1 = .newline := by
    rwa [finished, List.isEmpty_iff, rest_nextToken, nextToken, kind_consume] at hs
  have hfirst : Lexeme.first (c.followedBy more).rest = Lexeme.first c.rest :=
    Lexeme.first_append hr hs
  rw [nextToken, hfirst]
  exact consume_followedBy (Lexeme.first_length_le hr)

theorem line_eq_nextToken (c : Cursor) : c.nextToken.1.line = c.line := by
  rw [nextToken_eq_consume]
  unfold consume
  dsimp only
  split <;> rfl

theorem line_nextToken (c : Cursor) : c.nextToken.2.line =
    c.line + if c.nextToken.1.kind = .newline then 1 else 0 := by
  rw [nextToken_eq_consume, kind_consume]
  unfold consume
  dsimp only
  split <;> rfl

theorem atLineStart_nextToken (h : c.nextToken.1.kind = .newline) :
    c.nextToken.2.AtLineStart := by
  rw [nextToken_eq_consume, kind_consume] at h
  rw [nextToken_eq_consume, h]
  exact ⟨rfl, rfl⟩

/-- After a token that ends the line, what follows is cut as if it stood alone. -/
theorem tokens_followedBy (s : String) (c : Cursor)
    (hl : ∀ t ∈ c.tokens.getLast?, t.kind = .newline) (hc : c.finished → c.AtLineStart) :
    (c.followedBy s.toList).tokens = c.tokens ++
      ((ofString s).shift (c.position + byteLength c.rest)
        (c.line + c.tokens.countP (·.kind = .newline))).tokens := by
  by_cases hf : c.finished
  · have hr : c.rest = [] := by simpa [finished] using hf
    have ht : c.tokens = [] := c.tokens_of_finished hf
    obtain ⟨hcol, hind⟩ := hc hf
    have he : c.followedBy s.toList = (ofString s).shift c.position c.line := by
      simp [followedBy, shift, ofString, hr, hcol, hind]
    rw [ht, hr, he]
    rfl
  · have ht := c.tokens_of_not_finished hf
    rw [ht, List.getLast?_cons] at hl
    have hnext : ∀ t ∈ c.nextToken.2.tokens.getLast?, t.kind = .newline := by
      intro t h
      apply hl
      rw [h]
      rfl
    have hend : c.nextToken.2.finished → c.nextToken.1.kind = .newline := by
      intro h
      apply hl
      rw [tokens_of_finished _ h]
      rfl
    have ih := tokens_followedBy s c.nextToken.2 hnext fun h => atLineStart_nextToken (hend h)
    have hfm : ¬ (c.followedBy s.toList).finished := by
      simp only [finished, followedBy, List.isEmpty_iff, List.append_eq_nil_iff] at hf ⊢
      exact fun h => hf h.1
    have hpos : c.nextToken.2.position + byteLength c.nextToken.2.rest =
        c.position + byteLength c.rest := by
      rw [position_nextToken, rest_nextToken, Nat.add_assoc, ← byteLength_append,
        List.take_append_drop]
    rw [tokens_of_not_finished _ hfm, nextToken_followedBy hf (not_or_of_imp hend), ih, hpos,
      line_nextToken, ht, List.countP_cons]
    simp [Nat.add_assoc, Nat.add_comm]
termination_by c.rest.length
decreasing_by exact c.length_rest_nextToken_lt ‹_›

end Cursor

theorem Token.shift_shift (m n k l : Nat) (t : Token) :
    (t.shift k l).shift m n = t.shift (m + k) (n + l) := by
  simp [Token.shift, Span.shift, Nat.add_assoc]

def Token.lineEnds (ts : List Token) : Nat :=
  ts.countP (·.kind = .newline)

/-- The tokens of texts that are cut one by one, each moved behind those before it. The first of
them has some bytes and lines before it. -/
def tokenizeEach (bytes lines : Nat) : List String → List Token
  | [] => []
  | s :: ss =>
    (tokenize s).map (Token.shift bytes lines) ++
      tokenizeEach (bytes + s.utf8ByteSize) (lines + Token.lineEnds (tokenize s)) ss

theorem tokenize_empty : tokenize "" = [] :=
  Cursor.tokens_of_finished _ rfl

theorem tokenize_append {s : String} (h : ∀ t ∈ (tokenize s).getLast?, t.kind = .newline)
    (s' : String) : tokenize (s ++ s') = tokenize s ++
      (tokenize s').map (Token.shift s.utf8ByteSize (Token.lineEnds (tokenize s))) := by
  have hs := Cursor.tokens_followedBy s' (Cursor.ofString s) h fun _ => ⟨rfl, rfl⟩
  rw [Cursor.tokens_shift] at hs
  have he : Cursor.ofString (s ++ s') = (Cursor.ofString s).followedBy s'.toList := by
    simp [Cursor.ofString, Cursor.followedBy]
  rw [tokenize, he, hs, Cursor.ofString, byteLength_toList, Nat.zero_add, Nat.zero_add]
  rfl

theorem tokenizeEach_eq (bytes lines : Nat) (ss : List String)
    (h : ∀ s ∈ ss.dropLast, ∀ t ∈ (tokenize s).getLast?, t.kind = .newline) :
    tokenizeEach bytes lines ss = (tokenize (String.join ss)).map (Token.shift bytes lines) := by
  induction ss generalizing bytes lines with
  | nil => simp [tokenizeEach, tokenize_empty]
  | cons s ss ih =>
    cases ss with
    | nil => simp [tokenizeEach]
    | cons s' ss =>
      obtain ⟨hs, hss⟩ := List.forall_mem_cons.mp h
      have hj : String.join (s :: s' :: ss) = s ++ String.join (s' :: ss) := by simp
      rw [hj, tokenize_append hs, List.map_append, List.map_map, tokenizeEach, ih _ _ hss]
      congr 2
      funext t
      exact (t.shift_shift ..).symm

/-- Cutting starts anew behind a token that ends the line. So a text can be cut line by line, unless
the end of a line is part of a token. -/
theorem tokenize_append_of_newline :
    (∀ s s' : String, (∀ t ∈ (tokenize s).getLast?, t.kind = .newline) →
      tokenize (s ++ s') = tokenize s ++
        (tokenize s').map (Token.shift s.utf8ByteSize (Token.lineEnds (tokenize s)))) ∧
    ∀ ss : List String, (∀ s ∈ ss.dropLast, ∀ t ∈ (tokenize s).getLast?, t.kind = .newline) →
      tokenize (String.join ss) = tokenizeEach 0 0 ss := by
  refine ⟨fun s s' h => tokenize_append h s', ?_⟩
  intro ss h
  have hid : Token.shift 0 0 = id := by
    funext t
    simp [Token.shift, Span.shift]
  rw [tokenizeEach_eq 0 0 ss h, hid, List.map_id]

/-- A text with a character of two bytes and an end of line between quotes, before an indented one;
and a text in four parts, one of them empty. -/
theorem tokenize_append_of_newline_quoted :
    tokenize ("é 'x\ny' // c\n" ++ "  b") = tokenize "é 'x\ny' // c\n" ++
      (tokenize "  b").map (Token.shift 14 1) ∧
    ((tokenize "  b").map (Token.shift 14 1)).map (fun t => (t.kind, t.span.start, t.line)) =
      [(.whitespace, 14, 1), (.identifier, 16, 1)] ∧
    tokenize (String.join ["a\n", " 'b\n' // c\n", "", "\t\"d"]) =
      tokenizeEach 0 0 ["a\n", " 'b\n' // c\n", "", "\t\"d"] ∧
    (tokenizeEach 0 0 ["a\n", " 'b\n' // c\n", "", "\t\"d"]).map (fun t => (t.kind, t.line)) =
      [(.identifier, 0), (.newline, 0), (.whitespace, 1), (.singleQuoted, 1), (.whitespace, 1),
        (.lineComment, 1), (.newline, 1), (.unrecognized, 2), (.doubleQuoted, 2)] := by
  have hbytes : "é 'x\ny' // c\n".utf8ByteSize = 14 := by decide +kernel
  have hends : Token.lineEnds (tokenize "é 'x\ny' // c\n") = 1 := by decide +kernel
  refine ⟨?_, by decide +kernel, ?_, by decide +kernel⟩
  · rw [tokenize_append_of_newline.1 "é 'x\ny' // c\n" "  b" (by decide +kernel), hbytes, hends]
  · exact tokenize_append_of_newline.2 _ (by decide +kernel)

end Verbatim
