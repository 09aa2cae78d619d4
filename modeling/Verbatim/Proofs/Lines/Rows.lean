import Verbatim.Proofs.Lexeme.Append
import Verbatim.Proofs.Lexeme.Canonical
import Verbatim.Proofs.Lines.Search

/-! # Rows

Tokens fall into rows, each up to a token that ends the line. The tokens of a text are numbered by
their rows, so the slices of its lines are the rows: nothing is lost between them, and their texts,
with ends of line put in between, are the text.
-/

namespace Verbatim

open Token (Kind)

namespace Token

/-- The first token is on line `n`, and each other one on the line of the token before it or, if
that ends the line, on the next. -/
def NumberedFrom : Nat → List Token → Prop
  | _, [] => True
  | n, t :: ts => t.line = n ∧ NumberedFrom (n + if t.kind = .newline then 1 else 0) ts

/-- Tokens cut behind those that end a line. What follows the last of these is a row, too, even if
it is empty. -/
inductive Rows : List Token → List (List Token) → Prop where

  | last {row : List Token} : (∀ t ∈ row, t.kind ≠ .newline) → Rows row [row]

  | cons {front ts : List Token} {t : Token} {rows : List (List Token)} :
      (∀ u ∈ front, u.kind ≠ .newline) → t.kind = .newline → Rows ts rows →
      Rows (front ++ t :: ts) ((front ++ [t]) :: rows)

variable {n : Nat} {t : Token} {ts front row : List Token} {rows : List (List Token)}

section Numbers

@[simp] theorem lineEnds_nil : lineEnds [] = 0 := rfl

theorem lineEnds_append (ts us : List Token) : lineEnds (ts ++ us) = lineEnds ts + lineEnds us :=
  List.countP_append

theorem lineEnds_cons (t : Token) (ts : List Token) :
    lineEnds (t :: ts) = lineEnds ts + if t.kind = .newline then 1 else 0 := by
  simp [lineEnds, List.countP_cons]

theorem lineEnds_eq_zero (hf : ∀ t ∈ front, t.kind ≠ .newline) : lineEnds front = 0 := by
  simpa [lineEnds] using hf

theorem NumberedFrom.le (h : NumberedFrom n ts) : ∀ t ∈ ts, n ≤ t.line := by
  induction ts generalizing n with
  | nil => simp
  | cons t ts ih =>
    obtain ⟨rfl, h⟩ := h
    refine List.forall_mem_cons.mpr ⟨Nat.le_refl _, fun u hu => ?_⟩
    exact Nat.le_trans (Nat.le_add_right ..) (ih h u hu)

theorem NumberedFrom.pairwise (h : NumberedFrom n ts) : ts.Pairwise (·.line ≤ ·.line) := by
  induction ts generalizing n with
  | nil => exact .nil
  | cons t ts ih =>
    obtain ⟨rfl, h⟩ := h
    refine List.pairwise_cons.mpr ⟨fun u hu => ?_, ih h⟩
    exact Nat.le_trans (Nat.le_add_right ..) (h.le u hu)

theorem numberedFrom_append_iff : NumberedFrom n (ts ++ row) ↔
    NumberedFrom n ts ∧ NumberedFrom (n + lineEnds ts) row := by
  induction ts generalizing n with
  | nil => simp [NumberedFrom, lineEnds]
  | cons t ts ih =>
    simp [NumberedFrom, ih, lineEnds_cons, and_assoc, Nat.add_assoc, Nat.add_comm]

theorem NumberedFrom.line_eq (h : NumberedFrom n front) (hf : ∀ t ∈ front, t.kind ≠ .newline) :
    ∀ t ∈ front, t.line = n := by
  induction front with
  | nil => simp
  | cons t ts ih =>
    obtain ⟨ht, hts⟩ := List.forall_mem_cons.mp hf
    obtain ⟨rfl, h⟩ := h
    rw [if_neg ht] at h
    exact List.forall_mem_cons.mpr ⟨rfl, ih h hts⟩

theorem NumberedFrom.cut (h : NumberedFrom n (front ++ t :: ts))
    (hf : ∀ u ∈ front, u.kind ≠ .newline) (ht : t.kind = .newline) :
    (∀ u ∈ front ++ [t], u.line = n) ∧ NumberedFrom (n + 1) ts := by
  obtain ⟨hfront, hline, hts⟩ := numberedFrom_append_iff.mp h
  rw [lineEnds_eq_zero hf, Nat.add_zero] at hline hts
  rw [if_pos ht] at hts
  exact ⟨List.forall_mem_append.mpr ⟨hfront.line_eq hf, by simpa using hline⟩, hts⟩

end Numbers

def rowText (row : List Token) : String :=
  detokenize (row.filter (·.kind ≠ .newline))

theorem rowText_of_forall (h : ∀ t ∈ row, t.kind ≠ .newline) : rowText row = detokenize row := by
  rw [rowText, List.filter_eq_self.mpr (by simpa using h)]

theorem rowText_concat (hf : ∀ u ∈ front, u.kind ≠ .newline) (ht : t.kind = .newline) :
    rowText (front ++ [t]) = detokenize front := by
  have hfront : front.filter (·.kind ≠ .newline) = front :=
    List.filter_eq_self.mpr (by simpa using hf)
  rw [rowText, List.filter_append, hfront, List.filter_cons_of_neg (by simpa using ht),
    List.filter_nil, List.append_nil]

theorem exists_rows (ts : List Token) : ∃ rows, Rows ts rows := by
  induction ts with
  | nil => exact ⟨_, .last (by simp)⟩
  | cons t ts ih =>
    obtain ⟨rows, h⟩ := ih
    by_cases ht : t.kind = .newline
    · exact ⟨_, .cons (List.forall_mem_nil _) ht h⟩
    · cases h with
      | last hr => exact ⟨_, .last (List.forall_mem_cons.mpr ⟨ht, hr⟩)⟩
      | cons hf hu h => exact ⟨_, .cons (List.forall_mem_cons.mpr ⟨ht, hf⟩) hu h⟩

namespace Rows

theorem flatten_eq (h : Rows ts rows) : rows.flatten = ts := by
  induction h with
  | last _ => simp
  | cons _ _ _ ih => simp [ih]

theorem ne_nil (h : Rows ts rows) : rows ≠ [] := by
  cases h <;> simp

theorem filter_line_eq (h : Rows ts rows) (hn : NumberedFrom n ts) (i : Nat) :
    ts.filter (·.line = n + i) = rows.getD i [] := by
  induction h generalizing n i with
  | @last row hr =>
    have hl := hn.line_eq hr
    cases i with
    | zero => simpa using hl
    | succ i => simpa using fun t ht => by rw [hl t ht]; omega
  | @cons front ts t rows hf ht h ih =>
    obtain ⟨hrow, hts⟩ := hn.cut hf ht
    rw [List.append_cons, List.filter_append]
    cases i with
    | zero =>
      have hfront : (front ++ [t]).filter (·.line = n + 0) = front ++ [t] :=
        List.filter_eq_self.mpr (by simpa using hrow)
      have hrest : ts.filter (·.line = n + 0) = [] := by
        refine List.filter_eq_nil_iff.mpr fun u hu => ?_
        have := hts.le u hu
        simp only [decide_eq_true_eq]
        omega
      rw [hfront, hrest, List.append_nil]
      rfl
    | succ i =>
      have hfront : (front ++ [t]).filter (·.line = n + (i + 1)) = [] := by
        refine List.filter_eq_nil_iff.mpr fun u hu => ?_
        have := hrow u hu
        simp only [decide_eq_true_eq]
        omega
      have hi : n + (i + 1) = n + 1 + i := by omega
      rw [hfront, List.nil_append, hi, ih hts]
      rfl

theorem length_eq (h : Rows ts rows) : rows.length = lineEnds ts + 1 := by
  induction h with
  | last hr => simp [lineEnds_eq_zero hr]
  | cons hf ht _ ih => simp [lineEnds_append, lineEnds_cons, lineEnds_eq_zero hf, ht, ih]

theorem not_newline_of_mem_dropLast (h : Rows ts rows) :
    ∀ row ∈ rows, ∀ t ∈ row.dropLast, t.kind ≠ .newline := by
  induction h with
  | last hr =>
    simpa using fun t ht => hr t (List.dropLast_subset _ ht)
  | cons hf _ _ ih => exact List.forall_mem_cons.mpr ⟨by simpa using hf, ih⟩

theorem not_newline_of_mem_dropLast_getD (h : Rows ts rows) (i : Nat) :
    ∀ t ∈ (rows.getD i []).dropLast, t.kind ≠ .newline := by
  rcases Nat.lt_or_ge i rows.length with hi | hi
  · exact h.not_newline_of_mem_dropLast _ (by simp [hi])
  · simp [hi]

theorem getLast?_of_lt (h : Rows ts rows) {i : Nat} (hi : i + 1 < rows.length) :
    ∃ t, (rows.getD i []).getLast? = some t ∧ t.kind = .newline := by
  induction h generalizing i with
  | last _ => simp at hi
  | @cons front ts t rows _ ht _ ih =>
    cases i with
    | zero => exact ⟨t, List.getLast?_concat, ht⟩
    | succ i => exact ih (by simpa using hi)

theorem getD_eq_nil_iff (h : Rows ts rows) {i : Nat} (hi : i + 1 = rows.length) :
    rows.getD i [] = [] ↔ ∀ t ∈ ts.getLast?, t.kind = .newline := by
  induction h generalizing i with
  | @last row hr =>
    obtain rfl : i = 0 := by simpa using hi
    constructor
    · rintro rfl t ht
      cases ht
    · intro hl
      refine List.getLast?_eq_none_iff.mp (Option.eq_none_iff_forall_not_mem.mpr fun t ht => ?_)
      exact hr t (List.mem_of_getLast? ht) (hl t ht)
  | @cons front ts t rows _ ht h ih =>
    have hpos := List.length_pos_iff.mpr h.ne_nil
    obtain ⟨i, rfl⟩ : ∃ j, i = j + 1 := ⟨i - 1, by simp at hi; omega⟩
    have hi : i + 1 = rows.length := by simpa using hi
    refine (ih hi).trans ?_
    rw [List.getLast?_append, List.getLast?_cons]
    cases ts.getLast? <;> simp [ht]

theorem intercalate_rowText (h : Rows ts rows)
    (hn : ∀ t ∈ ts, t.kind = .newline → t.sourceText = "\n") :
    "\n".intercalate (rows.map rowText) = detokenize ts := by
  induction h with
  | last hr => simp [rowText_of_forall hr]
  | @cons front ts t rows hf ht h ih =>
    obtain ⟨hfront, hrest⟩ := List.forall_mem_append.mp hn
    obtain ⟨htext, hts⟩ := List.forall_mem_cons.mp hrest
    have hne : rows.map rowText ≠ [] := by simpa using h.ne_nil
    rw [List.map_cons, String.intercalate_cons_of_ne_nil hne, ih hts, rowText_concat hf ht,
      detokenize_append, detokenize_cons, htext ht, String.append_assoc]

end Rows

theorem lineText_eq (h : ∀ t ∈ (onLine ts n).dropLast, t.kind ≠ .newline) :
    lineText ts n = if onLine ts n = [] then none else some (rowText (onLine ts n)) := by
  rw [lineText]
  rcases List.eq_nil_or_concat' (onLine ts n) with he | ⟨front, t, he⟩
  · simp [he]
  · have hf : ∀ u ∈ front, u.kind ≠ .newline := by simpa [he] using h
    by_cases ht : t.kind = .newline
    · simp [he, ht, rowText_concat hf ht]
    · have hrow : ∀ u ∈ front ++ [t], u.kind ≠ .newline :=
        List.forall_mem_append.mpr ⟨hf, by simpa using ht⟩
      simp [he, ht, rowText_of_forall hrow]

theorem lineText_getD (h : ∀ t ∈ (onLine ts n).dropLast, t.kind ≠ .newline) :
    (lineText ts n).getD "" = rowText (onLine ts n) := by
  rw [lineText_eq h]
  split_ifs with he
  · rw [he]
    rfl
  · rfl

theorem NumberedFrom.lineCount_eq (h : NumberedFrom n ts) (hne : ts ≠ []) :
    lineCount ts = n + lineEnds ts + 1 := by
  obtain ⟨front, t, rfl⟩ := (List.eq_nil_or_concat' ts).resolve_left hne
  have hl : t.line = n + lineEnds front := (numberedFrom_append_iff.mp h).2.1
  by_cases ht : t.kind = .newline <;>
    simp [lineCount, lineEnds_append, lineEnds_cons, ht, hl, Nat.add_assoc]

end Token

open Token (NumberedFrom Rows)

theorem Cursor.numberedFrom_tokens (c : Cursor) : NumberedFrom c.line c.tokens := by
  by_cases hf : c.finished
  · rw [c.tokens_of_finished hf]
    trivial
  · rw [c.tokens_of_not_finished hf]
    refine ⟨c.line_eq_nextToken, ?_⟩
    have ih := c.nextToken.2.numberedFrom_tokens
    rwa [c.line_nextToken] at ih
termination_by c.rest.length
decreasing_by exact c.length_rest_nextToken_lt ‹_›

theorem numberedFrom_tokenize (source : String) : NumberedFrom 0 (tokenize source) :=
  (Cursor.ofString source).numberedFrom_tokens

theorem spells_of_mem_tokenize {source : String} {t : Token} (h : t ∈ tokenize source) :
    Lexeme.Spells t.kind t.sourceText.toList :=
  (Cursor.lexemes_tokens_eq_iff.mp rfl).1.spells t.lexeme (List.mem_map_of_mem h)

theorem sourceText_of_newline {source : String} {t : Token} (h : t ∈ tokenize source)
    (ht : t.kind = .newline) : t.sourceText = "\n" := by
  have hs := spells_of_mem_tokenize h
  rw [ht] at hs
  exact String.toList_inj.mp hs

theorem exists_rows_tokenize (source : String) : ∃ rows, Rows (tokenize source) rows ∧
    ∀ n, Token.onLine (tokenize source) n = rows.getD n [] := by
  obtain ⟨rows, h⟩ := Token.exists_rows (tokenize source)
  refine ⟨rows, h, fun n => ?_⟩
  have hn := numberedFrom_tokenize source
  rw [Token.onLine_eq_filter hn.pairwise, ← h.filter_line_eq hn, Nat.zero_add]

theorem map_range_getD {α : Type} (xss : List (List α)) :
    (List.range xss.length).map (fun i => xss.getD i []) = xss := by
  apply List.ext_getElem
  · simp
  · intro i _ hi
    simp [hi]

section

open Token (onLine lineText lineCount)

/-- The slices of the lines of a text, one after the other, are its tokens; each but the last is
there and ends the line, which happens nowhere else in it, and the last is empty only after the end
of a line. The texts of the lines make up the text. In tokens with ascending line numbers the slice
of a line holds those with its number. -/
theorem slices_tokenize :
    (∀ source : String,
      let ts := tokenize source
      (List.range (lineCount ts)).flatMap (onLine ts) = ts ∧
      (∀ n, lineCount ts ≤ n → onLine ts n = []) ∧
      (∀ n, ∀ t ∈ (onLine ts n).dropLast, t.kind ≠ .newline) ∧
      (∀ n, n + 1 < lineCount ts → ∃ t, (onLine ts n).getLast? = some t ∧ t.kind = .newline) ∧
      (∀ n, n + 1 = lineCount ts →
        (onLine ts n = [] ↔ ∃ t, ts.getLast? = some t ∧ t.kind = .newline)) ∧
      "\n".intercalate ((List.range (lineCount ts)).map fun n => (lineText ts n).getD "") =
        source) ∧
    ∀ ts : List Token, ts.Pairwise (·.line ≤ ·.line) →
      ∀ n, onLine ts n = ts.filter (·.line = n) := by
  refine ⟨?_, fun ts h n => Token.onLine_eq_filter h n⟩
  intro source ts
  have htext : detokenize ts = source := detokenize_tokenize source
  by_cases hne : ts = []
  · rw [hne] at htext ⊢
    have hon (n : Nat) : onLine [] n = [] := Token.onLine_eq_filter .nil n
    simp [lineCount, hon, ← htext]
  · obtain ⟨rows, h, hon⟩ : ∃ rows, Rows ts rows ∧ ∀ n, onLine ts n = rows.getD n [] :=
      exists_rows_tokenize source
    have hcount : lineCount ts = rows.length := by
      rw [(numberedFrom_tokenize source).lineCount_eq hne, h.length_eq, Nat.zero_add]
    have hrow (n : Nat) : ∀ t ∈ (onLine ts n).dropLast, t.kind ≠ .newline := by
      rw [hon]
      exact h.not_newline_of_mem_dropLast_getD n
    have hall : (List.range rows.length).map (onLine ts) = rows := by
      rw [funext hon, map_range_getD]
    refine ⟨?_, ?_, hrow, ?_, ?_, ?_⟩
    · rw [hcount, List.flatMap_def, hall, h.flatten_eq]
    · intro n hn
      rw [hon]
      simp [← hcount, hn]
    · intro n hn
      rw [hon]
      exact h.getLast?_of_lt (hcount ▸ hn)
    · intro n hn
      rw [hon, h.getD_eq_nil_iff (hcount ▸ hn)]
      cases hl : ts.getLast? with
      | none => exact (hne (List.getLast?_eq_none_iff.mp hl)).elim
      | some t => simp
    · have hlines : (List.range rows.length).map (fun n => (lineText ts n).getD "") =
          rows.map Token.rowText := by
        nth_rewrite 2 [← hall]
        rw [List.map_map]
        exact List.map_congr_left fun n _ => Token.lineText_getD (hrow n)
      rw [hcount, hlines, h.intercalate_rowText fun t => sourceText_of_newline, htext]

/-- A text with a quoted end of line, an empty line and an end of line at its end; and tokens that
no text has, with line numbers out of step. -/
theorem slices_tokenize_gaps :
    let mark : Nat → Token := fun n => ⟨.newline, ⟨0, 0⟩, n, 1, 0, none⟩
    let ts := tokenize "a 'x\ny'\n\nb\n"
    (lineCount ts = 4 ∧ (∃ t, (onLine ts 1).getLast? = some t ∧ t.kind = .newline) ∧
      onLine ts 3 = []) ∧
    onLine [mark 2, mark 2, mark 5] 2 = [mark 2, mark 2, mark 5].filter (·.line = 2) := by
  intro mark ts
  have hcount : lineCount ts = 4 := by decide +kernel
  obtain ⟨-, -, -, hends, hlast, -⟩ := slices_tokenize.1 "a 'x\ny'\n\nb\n"
  refine ⟨⟨hcount, hends 1 ?_, (hlast 3 hcount.symm).mpr ?_⟩, slices_tokenize.2 _ (by decide) 2⟩
  · change 1 + 1 < lineCount ts
    rw [hcount]
    decide
  · exact ⟨⟨.newline, ⟨10, 11⟩, 2, 2, 0, none⟩, by decide +kernel⟩

end

end Verbatim
