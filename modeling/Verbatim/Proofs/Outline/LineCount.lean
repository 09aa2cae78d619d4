import Verbatim.Proofs.Lines.Physical
import Verbatim.Proofs.Outline.Preorder
import Verbatim.Proofs.Recovery.Attribution

/-! # Lines of an outline

An outline writes labels without their ends of line, but errors as they are. An error names a token
that was skipped, and of these only a string can go over several lines. So the outline of a parsed
text has one line for each term, unless the first token skipped for a term is such a string.
-/

namespace Verbatim.Block

open Outline

def errorEnds (ts : List Term) : Nat :=
  (String.join (ts.filterMap Term.error)).toList.count '\n'

section Counts

variable {b : Block} {ts us : List Term} {t : Term} {a : Address}

theorem errorEnds_cons (t : Term) (ts : List Term) :
    errorEnds (t :: ts) = (t.error.getD "").toList.count '\n' + errorEnds ts := by
  cases he : t.error <;> simp [errorEnds, he]

theorem errorEnds_perm (h : ts.Perm us) : errorEnds ts = errorEnds us := by
  rw [errorEnds, errorEnds, String.toList_join, String.toList_join]
  exact ((h.filterMap Term.error).flatMap_right String.toList).count_eq '\n'

theorem errorEnds_eq_zero_iff :
    errorEnds ts = 0 ↔ ∀ t ∈ ts, ∀ e, t.error = some e → '\n' ∉ e.toList := by
  rw [errorEnds, List.count_eq_zero, String.toList_join, List.mem_flatMap]
  constructor
  · intro hnot t ht e he hn
    exact hnot ⟨e, List.mem_filterMap.mpr ⟨t, ht, he⟩, hn⟩
  · rintro hall ⟨e, he, hn⟩
    obtain ⟨t, ht, he⟩ := List.mem_filterMap.mp he
    exact hall t ht e he hn

theorem not_mem_label (t : Term) : '\n' ∉ (label t).toList := by
  have hline : ∀ cs : List Char, '\n' ∉ cs.map fun c => if c = '\n' then '↵' else c := by
    intro cs hm
    obtain ⟨c, -, hc⟩ := List.mem_map.mp hm
    split at hc
    · cases hc
    · contradiction
  rw [label, String.toList_ofList, truncate]
  split
  · rw [List.mem_append]
    rintro (hm | hm)
    · exact hline _ (List.mem_of_mem_take hm)
    · exact absurd hm (by decide)
  · exact hline _

theorem count_toString (n : Nat) : (toString n).toList.count '\n' = 0 := by
  rw [Nat.toString_eq_ofList_toDigits, String.toList_ofList, List.count_eq_zero]
  intro hm
  have hd : ('\n').isDigit := Nat.isDigit_of_mem_toDigits (by omega) (Nat.le_refl 10) hm
  exact absurd hd (by decide)

theorem count_caption (t : Term) :
    (caption t).toList.count '\n' = (t.error.getD "").toList.count '\n' := by
  have hicon : (icon t.kind).toList.count '\n' = 0 := by cases t.kind <;> decide
  have hlabel := List.count_eq_zero.mpr (not_mem_label t)
  have hindex := count_toString t.index
  rw [caption]
  simp only [String.toList_append, List.count_append, hicon, hlabel, hindex]
  cases t.error <;> simp

theorem count_line :
    (line b ts a t).toList.count '\n' = 1 + (t.error.getD "").toList.count '\n' := by
  have hrails : '\n' ∉ (String.join
      (a.above.map fun p => if hasLater b ts p then "│ " else "  ")).toList := by
    rw [String.toList_join, List.mem_flatMap]
    rintro ⟨rail, hr, hm⟩
    obtain ⟨p, -, rfl⟩ := List.mem_map.mp hr
    split at hm <;> exact absurd hm (by decide)
  have hconnector : (if hasLater b ts a then "├─ " else "└─ ").toList.count '\n' = 0 := by
    split <;> decide
  rw [line]
  simp only [String.toList_append, List.count_append, List.count_eq_zero.mpr hrails, hconnector,
    count_caption]
  rw [Nat.zero_add, Nat.add_comm]
  rfl

theorem count_lines (ns : List (Address × Term)) :
    (String.join (ns.map fun x => line b ts x.1 x.2)).toList.count '\n' =
      ns.length + errorEnds (ns.map (·.2)) := by
  induction ns with
  | nil => rfl
  | cons x ns ih =>
    rw [List.map_cons, String.join_cons, String.toList_append, List.count_append, count_line, ih,
      List.map_cons, errorEnds_cons, List.length_cons]
    omega

theorem count_outline (b : Block) : b.outline.toList.count '\n' =
    1 + b.preorder.length + errorEnds (b.preorder.map (·.2)) := by
  have hheader : ("⧉ " ++ toString b.length ++ " terms\n").toList.count '\n' = 1 := by
    simp only [String.toList_append, List.count_append, count_toString]
    rfl
  rw [outline_eq_join, String.toList_append, List.count_append, hheader, count_lines, Nat.add_assoc]

end Counts

section Parsed

variable {b : Block} {g : Grammar} {tokens : List Token} {source : String} {t : Term}

/-- In the outline of a parsed block each term has one line, and one more for each end of line in
its error. -/
theorem count_outline_of_parse (h : parse g tokens = .ok b) :
    b.outline.toList.count '\n' = 1 + b.length + errorEnds b := by
  obtain ⟨ps, -, rfl⟩ := parse_eq_ok_iff.mp h
  have hperm := perm_preorder_ofPhrases ps
  have hlen := hperm.length_eq
  rw [List.length_map] at hlen
  rw [count_outline, errorEnds_perm hperm, hlen]

theorem isQuoted_of_mem_error {e : String} (h : parse g (tokenize source) = .ok b) (ht : t ∈ b)
    (he : t.error = some e) (hn : '\n' ∈ e.toList) :
    ∃ u ∈ tokenize source, u.isQuoted ∧ '\n' ∈ u.sourceText.toList ∧
      e = "unexpected token: " ++ u.sourceText := by
  obtain ⟨u, hu, calls, hstray, rfl⟩ := exists_stray_of_error h ht he
  have hmem : '\n' ∈ u.sourceText.toList := by
    rw [String.toList_append, List.mem_append] at hn
    exact hn.resolve_left (by decide)
  refine ⟨u, hu, ?_, hmem, rfl⟩
  by_contra hq
  have hk : u.kind ≠ .singleQuoted ∧ u.kind ≠ .doubleQuoted := by
    simpa [Token.isQuoted] using hq
  have hnl : u.kind ≠ .newline := by
    intro hk
    exact hstray.1 (by rw [Token.isTrivia, hk]; rfl)
  exact Lexeme.not_mem_of_spells (spells_of_mem_tokenize hu) hnl hk.1 hk.2 hmem

/-- The outline of a parsed text has a line for each term behind its header, and no other, if and
only if no error names a string that goes over several lines. In any case the lines are those of the
header and the terms, and one for each end of line in an error. -/
theorem count_outline_eq_iff (h : parse g (tokenize source) = .ok b) :
    (b.outline.toList.count '\n' = 1 + b.length ↔ ∀ t ∈ b, ∀ u ∈ tokenize source,
      t.error = some ("unexpected token: " ++ u.sourceText) → u.isQuoted →
        '\n' ∉ u.sourceText.toList) ∧
    b.outline.toList.count '\n' = 1 + b.length + errorEnds b := by
  have hcount := count_outline_of_parse h
  refine ⟨?_, hcount⟩
  rw [hcount, Nat.add_eq_left, errorEnds_eq_zero_iff]
  constructor
  · intro hall t ht u _ he _ hn
    exact hall t ht _ he (by simp [hn])
  · intro hall t ht e he hn
    obtain ⟨u, hu, hq, hm, rfl⟩ := isQuoted_of_mem_error h ht he hn
    exact hall t ht u hu he hq hm

/-- A skipped string over two lines, which its error repeats, and one that is skipped behind another
token, within a call that goes over several lines. -/
theorem count_outline_eq_iff_quoted :
    (∃ b, parseSource "a '\n'" = .ok b ∧ b.length = 1 ∧
      b.outline = "⧉ 1 terms\n└─ ◦ $0 a '↵'  ⚠ unexpected token: '\n'\n" ∧
      b.outline.toList.count '\n' = 1 + b.length + 1 ∧
      ¬ b.outline.toList.count '\n' = 1 + b.length) ∧
    ∃ b, parseSource "f(a // b\n c]'\n')" = .ok b ∧ b.errors.length = 1 ∧
      b.outline.toList.count '\n' = 1 + b.length := by
  constructor
  · obtain ⟨b, hb, hp⟩ := exists_of_any (x := parseSource "a '\n'")
      (p := fun b : Block => b.length == 1 && errorEnds b == 1 &&
        b.outline == "⧉ 1 terms\n└─ ◦ $0 a '↵'  ⚠ unexpected token: '\n'\n") (by decide +kernel)
    obtain ⟨⟨hlen, hsum⟩, hout⟩ : (b.length = 1 ∧ errorEnds b = 1) ∧
        b.outline = "⧉ 1 terms\n└─ ◦ $0 a '↵'  ⚠ unexpected token: '\n'\n" := by
      simpa only [Bool.and_eq_true, beq_iff_eq] using hp
    have hcount := (count_outline_eq_iff hb).2
    rw [hsum] at hcount
    exact ⟨b, hb, hlen, hout, hcount, by omega⟩
  · obtain ⟨b, hb, hp⟩ := exists_of_any (x := parseSource "f(a // b\n c]'\n')")
      (p := fun b : Block => b.errors.length == 1 &&
        decide (∀ t : Term, t ∈ b → ∀ u ∈ tokenize "f(a // b\n c]'\n')",
          t.error = some ("unexpected token: " ++ u.sourceText) → u.isQuoted →
            '\n' ∉ u.sourceText.toList)) (by decide +kernel)
    obtain ⟨herr, hall⟩ := Bool.and_eq_true_iff.mp hp
    exact ⟨b, hb, beq_iff_eq.mp herr, (count_outline_eq_iff hb).1.mpr (of_decide_eq_true hall)⟩

end Parsed

end Verbatim.Block
