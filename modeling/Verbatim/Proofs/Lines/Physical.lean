import Verbatim.Proofs.Lines.Rows

/-! # Physical lines

The lines of a text end at the end-of-line characters in it, those of its tokens at the tokens that
end a line. The two are the same unless an end of line stands between quotes: such a one is part of
a token, and line numbers fall behind from there on.
-/

namespace Verbatim

open Token (Kind Rows onLine lineText lineEnds rowText)

namespace Text

def parts (source : String) : List String :=
  (source.toList.splitOn '\n').map String.ofList

/-- The lines of a text: its parts, but for an empty one behind the last end of line. The empty
text has no lines. -/
def lines (source : String) : List String :=
  if (parts source).getLast? = some "" then (parts source).dropLast else parts source

section Parts

variable {c : Char} {cs : List Char}

theorem length_splitOn (c : Char) (cs : List Char) : (cs.splitOn c).length = cs.count c + 1 := by
  induction cs with
  | nil => rfl
  | cons d cs ih =>
    rw [List.splitOn_cons_eq_if_modifyHead, List.count_cons]
    split_ifs <;> simp [ih]

theorem not_mem_of_mem_splitOn : ∀ part ∈ cs.splitOn c, c ∉ part := by
  induction cs with
  | nil => simp
  | cons d cs ih =>
    rw [List.splitOn_cons_eq_if_modifyHead]
    split_ifs with hd
    · exact List.forall_mem_cons.mpr ⟨by simp, ih⟩
    · cases hs : cs.splitOn c with
      | nil => simp
      | cons part parts =>
        rw [hs] at ih
        obtain ⟨hpart, hparts⟩ := List.forall_mem_cons.mp ih
        have hne : c ≠ d := fun he => hd (beq_iff_eq.mpr he.symm)
        exact List.forall_mem_cons.mpr ⟨List.not_mem_cons_of_ne_of_not_mem hne hpart, hparts⟩

end Parts

variable {source line : String} {n : Nat}

theorem length_parts (source : String) :
    (parts source).length = source.toList.count '\n' + 1 := by
  rw [parts, List.length_map, length_splitOn]

theorem parts_intercalate {texts : List String} (hne : texts ≠ [])
    (h : ∀ text ∈ texts, '\n' ∉ text.toList) : parts ("\n".intercalate texts) = texts := by
  have hs : ("\n".intercalate texts).toList.splitOn '\n' = texts.map String.toList := by
    rw [String.toList_intercalate]
    exact List.splitOn_intercalate '\n' (by simpa using h) (by simpa using hne)
  rw [parts, hs, List.map_map]
  simp

theorem lines_prefix_parts (source : String) : lines source <+: parts source := by
  rw [lines]
  split_ifs
  exacts [List.dropLast_prefix _, List.prefix_refl _]

theorem getElem?_parts (h : (lines source)[n]? = some line) : (parts source)[n]? = some line := by
  obtain ⟨more, he⟩ := lines_prefix_parts source
  rw [← he, List.getElem?_append_left (List.getElem?_eq_some_iff.mp h).1, h]

theorem not_mem_of_mem_lines (h : line ∈ lines source) : '\n' ∉ line.toList := by
  obtain ⟨cs, hcs, rfl⟩ := List.mem_map.mp ((lines_prefix_parts source).mem h)
  simpa using not_mem_of_mem_splitOn cs hcs

theorem count_le_length_lines (source : String) :
    source.toList.count '\n' ≤ (lines source).length := by
  have := length_parts source
  rw [lines]
  split_ifs
  · rw [List.length_dropLast]
    omega
  · omega

theorem ne_empty_of_last (h : (lines source)[n]? = some line) (hn : n + 1 = (parts source).length) :
    line ≠ "" := by
  rintro rfl
  have hlast : (parts source).getLast? = some "" := by
    rw [List.getLast?_eq_getElem?, ← hn, Nat.add_sub_cancel]
    exact getElem?_parts h
  rw [lines, if_pos hlast] at h
  have := (List.getElem?_eq_some_iff.mp h).1
  rw [List.length_dropLast] at this
  omega

end Text

namespace Token

def isQuoted (t : Token) : Bool :=
  t.kind == .singleQuoted || t.kind == .doubleQuoted

/-- The number of ends of line that stand between quotes. -/
def quotedEnds (ts : List Token) : Nat :=
  (detokenize (ts.filter isQuoted)).toList.count '\n'

/-- Tokens can be found by the lines of their text: looking up a line gives its text, and the line
number of a token is the number of ends of line before it. -/
structure ByLines (source : String) (ts : List Token) : Prop where
  lineText_eq : ∀ n line, (Text.lines source)[n]? = some line → lineText ts n = some line
  line_eq : ∀ t ∈ ts, t.line = (Span.slice source ⟨0, t.span.start⟩).toList.count '\n'

variable {c : Char} {ts us : List Token}

theorem mem_toList_detokenize_iff :
    c ∈ (detokenize ts).toList ↔ ∃ t ∈ ts, c ∈ t.sourceText.toList := by
  induction ts with
  | nil => simp
  | cons t ts ih => simp [ih]

theorem quotedEnds_append (ts us : List Token) :
    quotedEnds (ts ++ us) = quotedEnds ts + quotedEnds us := by
  simp [quotedEnds]

theorem quotedEnds_eq_zero_iff :
    quotedEnds ts = 0 ↔ ∀ t ∈ ts, t.isQuoted → '\n' ∉ t.sourceText.toList := by
  simp [quotedEnds, List.count_eq_zero, mem_toList_detokenize_iff]

theorem quotedEnds_eq_zero_of_subset (hs : ∀ t ∈ us, t ∈ ts) (h : quotedEnds ts = 0) :
    quotedEnds us = 0 :=
  quotedEnds_eq_zero_iff.mpr fun t ht => quotedEnds_eq_zero_iff.mp h t (hs t ht)

end Token

open Token (quotedEnds)

theorem Lexeme.not_mem_of_spells {kind : Kind} {cs : List Char} (h : Spells kind cs)
    (hn : kind ≠ .newline) (hs : kind ≠ .singleQuoted) (hd : kind ≠ .doubleQuoted) :
    '\n' ∉ cs := by
  intro hm
  cases kind with
  | leftParen | rightParen | leftBracket | rightBracket | slash =>
    subst h
    exact absurd hm (by decide)
  | whitespace => exact absurd (h.2 _ hm) (by decide)
  | identifier => exact absurd (h.2 _ hm) (by decide)
  | lineComment =>
    obtain ⟨ds, rfl, hds⟩ := h
    have hm : '\n' ∈ ds := by simpa using hm
    exact (hds _ hm).1 rfl
  | unrecognized =>
    obtain ⟨c, rfl, hc, -⟩ := h
    obtain rfl := List.mem_singleton.mp hm
    exact hc (by decide)
  | newline => exact hn rfl
  | singleQuoted => exact hs rfl
  | doubleQuoted => exact hd rfl
  | endOfStream => exact h

namespace Cursor

theorem nextToken_of_tokens_eq {c : Cursor} {t : Token} {ts : List Token}
    (h : c.tokens = t :: ts) :
    ¬ c.finished ∧ c.nextToken.1 = t ∧ c.nextToken.2.tokens = ts := by
  by_cases hf : c.finished
  · rw [c.tokens_of_finished hf] at h
    cases h
  · rw [c.tokens_of_not_finished hf] at h
    exact ⟨hf, List.cons.inj h⟩

theorem After.start_eq {source : String} {before : List Char} {c : Cursor} {front back : List Token}
    {t : Token} (h : c.After source before) (he : c.tokens = front ++ t :: back) :
    t.span.start = byteLength (before ++ (detokenize front).toList) := by
  induction front generalizing c before with
  | nil =>
    obtain ⟨-, rfl, -⟩ := nextToken_of_tokens_eq he
    rw [span_nextToken, h.position_eq]
    simp
  | cons u front ih =>
    obtain ⟨hf, rfl, hnext⟩ := nextToken_of_tokens_eq he
    rw [ih h.nextToken hnext, detokenize_cons, sourceText_nextToken hf]
    simp

end Cursor

section Tokenized

variable {source : String} {t : Token} {front back : List Token}

theorem slice_start (h : tokenize source = front ++ t :: back) :
    Span.slice source ⟨0, t.span.start⟩ = detokenize front := by
  have hs : source.toList = [] ++ (detokenize front).toList ++ (detokenize (t :: back)).toList := by
    nth_rewrite 1 [← detokenize_tokenize source, h]
    simp
  have hstart : t.span.start = byteLength [] + byteLength (detokenize front).toList := by
    rw [(Cursor.after_ofString source).start_eq h, ← byteLength_append]
  rw [hstart]
  exact (slice_byteLength hs).trans String.ofList_toList

theorem count_sourceText (h : t ∈ tokenize source) : t.sourceText.toList.count '\n' =
    lineEnds [t] + quotedEnds [t] := by
  by_cases hn : t.kind = .newline
  · rw [sourceText_of_newline h hn]
    simp [lineEnds, quotedEnds, Token.isQuoted, hn]
  · by_cases hq : t.isQuoted
    · simp [lineEnds, quotedEnds, hq, hn]
    · have hk : t.kind ≠ .singleQuoted ∧ t.kind ≠ .doubleQuoted := by
        simpa [Token.isQuoted] using hq
      have hm := Lexeme.not_mem_of_spells (spells_of_mem_tokenize h) hn hk.1 hk.2
      simp [lineEnds, quotedEnds, hq, hn, List.count_eq_zero.mpr hm]

/-- Ends of line are counted by the line numbers unless they stand between quotes. -/
theorem count_detokenize (h : ∀ t ∈ front, t ∈ tokenize source) :
    (detokenize front).toList.count '\n' = lineEnds front + quotedEnds front := by
  induction front with
  | nil => rfl
  | cons t front ih =>
    obtain ⟨ht, hfront⟩ := List.forall_mem_cons.mp h
    have hcons : t :: front = [t] ++ front := rfl
    rw [detokenize_cons, String.toList_append, List.count_append, count_sourceText ht, ih hfront,
      hcons, Token.lineEnds_append, Token.quotedEnds_append]
    omega

theorem line_eq_lineEnds (h : tokenize source = front ++ t :: back) : t.line = lineEnds front := by
  have hn := numberedFrom_tokenize source
  rw [h] at hn
  simpa using (Token.numberedFrom_append_iff.mp hn).2.1

theorem count_slice_start (h : tokenize source = front ++ t :: back) :
    (Span.slice source ⟨0, t.span.start⟩).toList.count '\n' =
      t.line + quotedEnds front := by
  have hmem : ∀ u ∈ front, u ∈ tokenize source := fun u hu => by simp [h, hu]
  rw [slice_start h, count_detokenize hmem, line_eq_lineEnds h]

theorem lineText_tokenize (source : String) (n : Nat) : lineText (tokenize source) n =
    if onLine (tokenize source) n = [] then none
    else some (rowText (onLine (tokenize source) n)) := by
  obtain ⟨rows, h, hon⟩ := exists_rows_tokenize source
  apply Token.lineText_eq
  rw [hon]
  exact h.not_newline_of_mem_dropLast_getD n

theorem parts_eq_map_rowText {rows : List (List Token)} (h : Rows (tokenize source) rows)
    (hq : quotedEnds (tokenize source) = 0) : Text.parts source = rows.map rowText := by
  have htext : "\n".intercalate (rows.map rowText) = source := by
    rw [h.intercalate_rowText fun t => sourceText_of_newline, detokenize_tokenize]
  have hline : ∀ text ∈ rows.map rowText, '\n' ∉ text.toList := by
    refine List.forall_mem_map.mpr fun row hrow => ?_
    have hmem : ∀ t ∈ row.filter (·.kind ≠ .newline), t ∈ tokenize source := fun t ht =>
      h.flatten_eq ▸ List.mem_flatten.mpr ⟨row, hrow, List.mem_of_mem_filter ht⟩
    have hends : lineEnds (row.filter (·.kind ≠ .newline)) = 0 :=
      Token.lineEnds_eq_zero fun t ht => by simpa using (List.mem_filter.mp ht).2
    rw [← List.count_eq_zero, rowText, count_detokenize hmem, hends,
      Token.quotedEnds_eq_zero_of_subset hmem hq]
  have hne : rows.map rowText ≠ [] := by simpa using h.ne_nil
  nth_rewrite 1 [← htext]
  exact Text.parts_intercalate hne hline

theorem lineText_eq_of_lines {n : Nat} {line : String}
    (hq : quotedEnds (tokenize source) = 0) (hl : (Text.lines source)[n]? = some line) :
    lineText (tokenize source) n = some line := by
  obtain ⟨rows, h, hon⟩ := exists_rows_tokenize source
  have hparts := parts_eq_map_rowText h hq
  have hn : (rows.map rowText)[n]? = some line := hparts ▸ Text.getElem?_parts hl
  obtain ⟨row, hrow, htext⟩ : ∃ row, rows[n]? = some row ∧ rowText row = line := by
    simpa using hn
  have hline : onLine (tokenize source) n = row := by
    rw [hon, List.getD_eq_getElem?_getD, hrow]
    rfl
  have hne : row ≠ [] := by
    rintro rfl
    have hlt : n < rows.length := (List.getElem?_eq_some_iff.mp hrow).1
    -- only the last row can be empty, and then the text has no such line
    rcases Nat.lt_or_eq_of_le hlt with hlt | hlast
    · obtain ⟨t, ht, -⟩ := h.getLast?_of_lt hlt
      rw [← hon, hline] at ht
      cases ht
    · have hlen : n + 1 = (Text.parts source).length := by
        rw [hparts, List.length_map]
        exact hlast
      exact Text.ne_empty_of_last hl hlen htext.symm
  rw [lineText_tokenize, hline, if_neg hne, htext]

theorem not_byLines_of_quoted (h : t ∈ tokenize source) (hq : t.isQuoted)
    (hm : '\n' ∈ t.sourceText.toList) : ¬ Token.ByLines source (tokenize source) := by
  intro hb
  have hkind : t.kind ≠ .newline := by
    intro he
    simp [Token.isQuoted, he] at hq
  have hlt : t.line < (Text.lines source).length := by
    obtain ⟨front, back, he⟩ := List.append_of_mem h
    have hends : quotedEnds [t] ≠ 0 := fun h0 =>
      Token.quotedEnds_eq_zero_iff.mp h0 t (List.mem_singleton_self t) hq hm
    have hcount := count_detokenize fun u (hu : u ∈ tokenize source) => hu
    rw [detokenize_tokenize, he, List.append_cons, Token.lineEnds_append, Token.lineEnds_append,
      Token.quotedEnds_append, Token.quotedEnds_append] at hcount
    have hall := Text.count_le_length_lines source
    rw [line_eq_lineEnds he]
    omega
  have hline := hb.lineText_eq _ _ (List.getElem?_eq_getElem hlt)
  have hon : t ∈ onLine (tokenize source) t.line := by
    rw [Token.onLine_eq_filter (numberedFrom_tokenize source).pairwise]
    simpa using h
  rw [lineText_tokenize, if_neg (List.ne_nil_of_mem hon)] at hline
  refine Text.not_mem_of_mem_lines (List.getElem_mem hlt) ?_
  rw [← Option.some.inj hline]
  have hrow : t ∈ (onLine (tokenize source) t.line).filter (·.kind ≠ .newline) :=
    List.mem_filter.mpr ⟨hon, by simpa using hkind⟩
  exact Token.mem_toList_detokenize_iff.mpr ⟨t, hrow, hm⟩

end Tokenized

/-- Tokens can be found by the lines of their text unless there is an end of line between quotes.
Line numbers count the tokens that end a line, so that a token is as many lines further down as ends
of line stand between quotes before it. -/
theorem byLines_tokenize_iff (source : String) :
    (Token.ByLines source (tokenize source) ↔
      ∀ t ∈ tokenize source, t.isQuoted → '\n' ∉ t.sourceText.toList) ∧
    ∀ (front back : List Token) (t : Token), tokenize source = front ++ t :: back →
      t.line = lineEnds front ∧
      (Span.slice source ⟨0, t.span.start⟩).toList.count '\n' = t.line + quotedEnds front := by
  refine ⟨⟨fun h t ht hq hm => not_byLines_of_quoted ht hq hm h, fun h => ?_⟩,
    fun _ _ _ h => ⟨line_eq_lineEnds h, count_slice_start h⟩⟩
  have hq : quotedEnds (tokenize source) = 0 := Token.quotedEnds_eq_zero_iff.mpr h
  refine ⟨fun n line hl => lineText_eq_of_lines hq hl, fun t ht => ?_⟩
  obtain ⟨front, back, he⟩ := List.append_of_mem ht
  have hfront : ∀ u ∈ front, u ∈ tokenize source := fun u hu => by simp [he, hu]
  rw [count_slice_start he, Token.quotedEnds_eq_zero_of_subset hfront hq, Nat.add_zero]

/-- A text with an empty line and one with an end of line between quotes, after which the third line
is looked up as the second. -/
theorem byLines_tokenize_iff_quoted :
    Token.ByLines "'b'\n\n// c\n" (tokenize "'b'\n\n// c\n") ∧
    ¬ Token.ByLines "'a\nb'\nc" (tokenize "'a\nb'\nc") ∧
    (Span.slice "'a\nb'\nc" ⟨0, 6⟩).toList.count '\n' = 1 + 1 ∧
      lineText (tokenize "'a\nb'\nc") 1 = some "c" := by
  let quoted : Token := ⟨.singleQuoted, ⟨0, 5⟩, 0, 1, 0, some "'a\nb'"⟩
  let mark : Token := ⟨.newline, ⟨5, 6⟩, 0, 6, 0, none⟩
  let name : Token := ⟨.identifier, ⟨6, 7⟩, 1, 1, 0, some "c"⟩
  have hts : tokenize "'a\nb'\nc" = [quoted, mark] ++ name :: [] := by decide +kernel
  have hends : quotedEnds [quoted, mark] = 1 := by decide +kernel
  obtain ⟨hiff, hbehind⟩ := byLines_tokenize_iff "'a\nb'\nc"
  refine ⟨(byLines_tokenize_iff _).1.mpr (by decide +kernel), ?_, ?_, by decide +kernel⟩
  · intro h
    exact hiff.mp h quoted (by simp [hts]) (by decide) (by decide +kernel)
  · have hcount := (hbehind [quoted, mark] [] name hts).2
    rwa [hends] at hcount

theorem lineText_behind_quoted :
    (Text.lines "'a\nb'\nc")[2]? = some "c" ∧ lineText (tokenize "'a\nb'\nc") 2 = none ∧
    ∃ t ∈ tokenize "'a\nb'\nc", t.line = 1 ∧
      (Span.slice "'a\nb'\nc" ⟨0, t.span.start⟩).toList.count '\n' = 2 := by
  exact ⟨by decide +kernel, by decide +kernel, by decide +kernel⟩

end Verbatim
