import Verbatim.Lexeme.Basic
import Mathlib.Data.List.TakeWhile
import Mathlib.Tactic.SplitIfs

/-! # How lexemes are spelled

Each kind of lexeme has its spellings. A lexeme comes first in a text exactly if it is a spelling
of its kind and what follows gives it no reason to go on.
-/

namespace Verbatim

open Token (Kind)

namespace Lexeme

/-- What stands between quotes: characters that mean themselves, and pairs of a backslash and any
character. -/
inductive Units (quote : Char) : List Char → Prop where

  | nil : Units quote []

  | plain {c : Char} {cs : List Char} : c ≠ quote → c ≠ '\x5c' → c ≠ nul → Units quote cs →
      Units quote (c :: cs)

  | escaped {c : Char} {cs : List Char} : c ≠ nul → Units quote cs →
      Units quote ('\x5c' :: c :: cs)

/-- A quoted text with both quotes. -/
def Closed (quote : Char) (cs : List Char) : Prop :=
  ∃ us, Units quote us ∧ cs = quote :: (us ++ [quote])

def Open (quote : Char) (cs : List Char) : Prop :=
  ∃ us, Units quote us ∧ (cs = quote :: us ∨ cs = quote :: (us ++ ['\x5c']))

def starters : List Char :=
  ['(', ')', '[', ']', '\n', '/', ' ', '\x27', '\x22']

/-- How the lexemes of a kind are spelled. -/
def Spells : Kind → List Char → Prop
  | .leftParen, cs => cs = ['(']
  | .rightParen, cs => cs = [')']
  | .leftBracket, cs => cs = ['[']
  | .rightBracket, cs => cs = [']']
  | .newline, cs => cs = ['\n']
  | .slash, cs => cs = ['/']
  | .whitespace, cs => cs ≠ [] ∧ ∀ c ∈ cs, c = ' '
  | .identifier, cs => cs ≠ [] ∧ ∀ c ∈ cs, c.isAlphanum ∨ c = '_'
  | .lineComment, cs => ∃ ds, cs = '/' :: '/' :: ds ∧ ∀ c ∈ ds, c ≠ '\n' ∧ c ≠ nul
  | .singleQuoted, cs => Closed '\x27' cs ∨ Open '\x27' cs
  | .doubleQuoted, cs => Closed '\x22' cs ∨ Open '\x22' cs
  | .unrecognized, cs => ∃ c, cs = [c] ∧ c ∉ starters ∧ ¬ (c.isAlphanum ∨ c = '_')
  | .endOfStream, _ => False

/-- Whether `cs` can be a lexeme of a kind before `rest` without taking more of it. -/
def Stops : Kind → List Char → List Char → Prop
  | .whitespace, _, rest => rest.head? ≠ some ' '
  | .identifier, _, rest => ∀ c ∈ rest.head?, ¬ isNameChar c
  | .slash, _, rest => rest.head? ≠ some '/'
  | .lineComment, _, rest => ∀ c ∈ rest.head?, ¬ isCommentChar c
  | .singleQuoted, cs, rest => Open '\x27' cs → ∀ c ∈ rest.head?, c = nul
  | .doubleQuoted, cs, rest => Open '\x22' cs → ∀ c ∈ rest.head?, c = nul
  | _, _, _ => True

section Extent

variable {p : Char → Bool} {quote : Char} {us cs rest : List Char}

theorem length_takeWhile_append_eq_iff : ((cs ++ rest).takeWhile p).length = cs.length ↔
    (∀ c ∈ cs, p c) ∧ ∀ c ∈ rest.head?, ¬ p c := by
  induction cs with
  | nil =>
    cases rest with
    | nil => simp
    | cons c rest => cases h : p c <;> simp [h]
  | cons c cs ih =>
    cases h : p c with
    | false => simp [h]
    | true => simpa [h] using ih

theorem quotedLength_plain {c : Char} (hc : c ≠ quote) (hb : c ≠ '\x5c') (hn : c ≠ nul) :
    quotedLength quote (c :: cs) = quotedLength quote cs + 1 := by
  rw [quotedLength.eq_def]
  simp only [hc, hb, hn, if_false]

theorem quotedLength_escaped {c : Char} (hq : quote ≠ '\x5c') (hn : c ≠ nul) :
    quotedLength quote ('\x5c' :: c :: cs) = quotedLength quote cs + 2 := by
  rw [quotedLength.eq_def]
  simp [hq.symm, hn, show '\x5c' ≠ nul by decide]

theorem quotedLength_quote (hn : quote ≠ nul) : quotedLength quote (quote :: cs) = 1 := by
  rw [quotedLength.eq_def]
  simp only [hn, if_false, if_true]

theorem quotedLength_of_head (h : ∀ c ∈ cs.head?, c = nul) : quotedLength quote cs = 0 := by
  rw [quotedLength.eq_def]
  cases cs with
  | nil => rfl
  | cons c cs => exact if_pos (h c rfl)

theorem quotedLength_backslash (hq : quote ≠ '\x5c') (h : ∀ c ∈ cs.head?, c = nul) :
    quotedLength quote ('\x5c' :: cs) = 1 := by
  rw [quotedLength.eq_def]
  cases cs with
  | nil => simp [hq.symm, show '\x5c' ≠ nul by decide]
  | cons c cs => simp [hq.symm, show c = nul from h c rfl, show '\x5c' ≠ nul by decide]

theorem quotedLength_units_append (hq : quote ≠ '\x5c') (hu : Units quote us) (cs : List Char) :
    quotedLength quote (us ++ cs) = us.length + quotedLength quote cs := by
  induction hu with
  | nil => simp
  | plain hc hb hn _ ih =>
    rw [List.cons_append, quotedLength_plain hc hb hn, ih, List.length_cons]
    omega
  | escaped hn _ ih =>
    rw [List.cons_append, List.cons_append, quotedLength_escaped hq hn, ih]
    simp only [List.length_cons]
    omega

theorem exists_units (quote : Char) (cs : List Char) : ∃ us rest, Units quote us ∧
    (cs = us ++ quote :: rest ∨
      (cs = us ++ rest ∨ cs = us ++ '\x5c' :: rest) ∧ ∀ c ∈ rest.head?, c = nul) := by
  fun_induction quotedLength quote cs with
  | case1 => exact ⟨[], [], .nil, .inr ⟨.inl rfl, by simp⟩⟩
  | case2 cs => exact ⟨[], nul :: cs, .nil, .inr ⟨.inl rfl, by simp⟩⟩
  | case3 cs => exact ⟨[], cs, .nil, .inl rfl⟩
  | case4 => exact ⟨[], [], .nil, .inr ⟨.inr rfl, by simp⟩⟩
  | case5 cs => exact ⟨[], nul :: cs, .nil, .inr ⟨.inr rfl, by simp⟩⟩
  | case6 d cs hn _ _ ih =>
    obtain ⟨us, rest, hu, h⟩ := ih
    refine ⟨'\x5c' :: d :: us, rest, .escaped hn hu, ?_⟩
    simpa using h
  | case7 d cs hn hc hb ih =>
    obtain ⟨us, rest, hu, h⟩ := ih
    refine ⟨d :: us, rest, .plain hc hb hn hu, ?_⟩
    simpa using h

theorem exists_quoted (quote : Char) (cs : List Char) : ∃ xs rest, cs = xs ++ rest ∧
    (Closed quote (quote :: xs) ∨ Open quote (quote :: xs) ∧ ∀ c ∈ rest.head?, c = nul) := by
  obtain ⟨us, rest, hu, rfl | ⟨rfl | rfl, hr⟩⟩ := exists_units quote cs
  · exact ⟨us ++ [quote], rest, by simp, .inl ⟨us, hu, rfl⟩⟩
  · exact ⟨us, rest, rfl, .inr ⟨⟨us, hu, .inl rfl⟩, hr⟩⟩
  · exact ⟨us ++ ['\x5c'], rest, by simp, .inr ⟨⟨us, hu, .inr rfl⟩, hr⟩⟩

theorem Closed.quotedLength_append (hq : quote ≠ '\x5c') (hn : quote ≠ nul)
    (h : Closed quote (quote :: cs)) : quotedLength quote (cs ++ rest) = cs.length := by
  obtain ⟨us, hu, he⟩ := h
  obtain rfl : cs = us ++ [quote] := (List.cons.inj he).2
  rw [List.append_assoc, quotedLength_units_append hq hu, List.singleton_append,
    quotedLength_quote hn, List.length_append, List.length_singleton]

theorem Open.quotedLength_append (hq : quote ≠ '\x5c') (h : Open quote (quote :: cs))
    (hr : ∀ c ∈ rest.head?, c = nul) : quotedLength quote (cs ++ rest) = cs.length := by
  obtain ⟨us, hu, he | he⟩ := h
  · obtain rfl : cs = us := (List.cons.inj he).2
    rw [quotedLength_units_append hq hu, quotedLength_of_head hr, Nat.add_zero]
  · obtain rfl : cs = us ++ ['\x5c'] := (List.cons.inj he).2
    rw [List.append_assoc, quotedLength_units_append hq hu, List.singleton_append,
      quotedLength_backslash hq hr, List.length_append, List.length_singleton]

theorem Open.not_closed (hq : quote ≠ '\x5c') (hn : quote ≠ nul) (h : Open quote (quote :: cs)) :
    ¬ Closed quote (quote :: cs) := by
  intro hc
  have hlen : quotedLength quote (cs ++ [quote]) = cs.length := hc.quotedLength_append hq hn
  obtain ⟨vs, hv, he | he⟩ := h
  · obtain rfl : cs = vs := (List.cons.inj he).2
    rw [quotedLength_units_append hq hv, quotedLength_quote hn] at hlen
    omega
  · obtain ⟨us, -, he'⟩ := hc
    have hl : vs ++ ['\x5c'] = us ++ [quote] := (List.cons.inj (he.symm.trans he')).2
    exact hq (List.cons.inj (List.append_inj' hl rfl).2).1.symm

/-- A quoted text is taken as a lexeme if it is closed, or if what follows lets it break off. -/
theorem quotedLength_append_eq_iff (hq : quote ≠ '\x5c') (hn : quote ≠ nul) :
    quotedLength quote (cs ++ rest) = cs.length ↔
      (Closed quote (quote :: cs) ∨ Open quote (quote :: cs)) ∧
        (Open quote (quote :: cs) → ∀ c ∈ rest.head?, c = nul) := by
  constructor
  · intro hl
    obtain ⟨xs, rest', he, h⟩ := exists_quoted quote (cs ++ rest)
    have hx : quotedLength quote (xs ++ rest') = xs.length := by
      rcases h with hc | ⟨ho, hr⟩
      · exact hc.quotedLength_append hq hn
      · exact ho.quotedLength_append hq hr
    rw [← he, hl] at hx
    obtain ⟨rfl, rfl⟩ := List.append_inj he hx
    rcases h with hc | ⟨ho, hr⟩
    · exact ⟨.inl hc, fun ho => (ho.not_closed hq hn hc).elim⟩
    · exact ⟨.inr ho, fun _ => hr⟩
  · rintro ⟨hc | ho, hr⟩
    · exact hc.quotedLength_append hq hn
    · exact ho.quotedLength_append hq (hr ho)

end Extent

theorem isNameChar_iff {c : Char} : isNameChar c ↔ c.isAlphanum ∨ c = '_' := by
  simp [isNameChar]

theorem isCommentChar_iff {c : Char} : isCommentChar c ↔ c ≠ '\n' ∧ c ≠ nul := by
  simp [isCommentChar]

theorem not_isNameChar_of_mem_starters : ∀ c ∈ starters, ¬ isNameChar c := by
  simp [starters, isNameChar]

variable {kind : Kind} {c : Char} {cs rest : List Char}

theorem first_of_not_mem_starters (h : c ∉ starters) : first (c :: cs) =
    if isNameChar c then (.identifier, (cs.takeWhile isNameChar).length + 1)
    else (.unrecognized, 1) := by
  simp only [starters, List.mem_cons, List.not_mem_nil, or_false, not_or] at h
  simp [first, h]

theorem spells_of_first (h : first (c :: (cs ++ rest)) = (kind, cs.length + 1)) :
    Spells kind (c :: cs) ∧ Stops kind (c :: cs) rest := by
  have hsingle (hl : 1 = cs.length + 1) : cs = [] := by
    rw [← List.length_eq_zero_iff]
    omega
  rw [first.eq_def] at h
  dsimp only at h
  split at h
  case h_6 =>
    split_ifs at h with hs
    all_goals obtain ⟨rfl, hl⟩ := Prod.mk.inj h
    · obtain ⟨hc, hr⟩ := length_takeWhile_append_eq_iff.mp (Nat.succ.inj hl)
      cases cs with
      | nil => exact (hr '/' hs (by decide)).elim
      | cons d ds =>
        obtain rfl : d = '/' := Option.some.inj hs
        refine ⟨⟨ds, rfl, ?_⟩, hr⟩
        intro c hm
        exact isCommentChar_iff.mp (hc c (List.mem_cons_of_mem _ hm))
    · obtain rfl := hsingle hl
      exact ⟨rfl, hs⟩
  case h_7 =>
    obtain ⟨rfl, hl⟩ := Prod.mk.inj h
    obtain ⟨hc, hr⟩ := length_takeWhile_append_eq_iff.mp (Nat.succ.inj hl)
    refine ⟨⟨List.cons_ne_nil _ _, ?_⟩, ?_⟩
    · simpa using hc
    · intro he
      exact hr ' ' he rfl
  case h_8 =>
    obtain ⟨rfl, hl⟩ := Prod.mk.inj h
    exact (quotedLength_append_eq_iff (by decide) (by decide)).mp (Nat.succ.inj hl)
  case h_9 =>
    obtain ⟨rfl, hl⟩ := Prod.mk.inj h
    exact (quotedLength_append_eq_iff (by decide) (by decide)).mp (Nat.succ.inj hl)
  case h_10 =>
    split_ifs at h with hn
    all_goals obtain ⟨rfl, hl⟩ := Prod.mk.inj h
    · obtain ⟨hc, hr⟩ := length_takeWhile_append_eq_iff.mp (Nat.succ.inj hl)
      refine ⟨⟨List.cons_ne_nil _ _, ?_⟩, hr⟩
      intro d hd
      rcases List.mem_cons.mp hd with rfl | hd
      · exact isNameChar_iff.mp hn
      · exact isNameChar_iff.mp (hc d hd)
    · obtain rfl := hsingle hl
      refine ⟨⟨c, rfl, ?_, ?_⟩, trivial⟩
      · simp only [starters, List.mem_cons, List.not_mem_nil, or_false, not_or]
        and_intros <;> assumption
      · rwa [← isNameChar_iff]
  all_goals
    obtain ⟨rfl, hl⟩ := Prod.mk.inj h
    obtain rfl := hsingle hl
    exact ⟨rfl, trivial⟩

theorem eq_of_quoted {quote : Char} (h : Closed quote (c :: cs) ∨ Open quote (c :: cs)) :
    c = quote := by
  rcases h with ⟨_, _, h⟩ | ⟨_, _, h | h⟩ <;> exact (List.cons.inj h).1

theorem first_of_spells (hs : Spells kind (c :: cs)) (hr : Stops kind (c :: cs) rest) :
    first (c :: (cs ++ rest)) = (kind, cs.length + 1) := by
  cases kind with
  | leftParen | rightParen | leftBracket | rightBracket | newline =>
    obtain ⟨rfl, rfl⟩ := List.cons.inj hs
    rfl
  | slash =>
    obtain ⟨rfl, rfl⟩ := List.cons.inj hs
    exact if_neg hr
  | whitespace =>
    obtain ⟨rfl, hc⟩ := List.forall_mem_cons.mp hs.2
    have hl : ((cs ++ rest).takeWhile (· == ' ')).length = cs.length := by
      refine length_takeWhile_append_eq_iff.mpr ⟨by simpa using hc, ?_⟩
      intro d hd he
      exact hr (by rw [hd, beq_iff_eq.mp he])
    change (Kind.whitespace, _ + 1) = _
    rw [hl]
  | identifier =>
    obtain ⟨hc, hcs⟩ := List.forall_mem_cons.mp hs.2
    have hn := isNameChar_iff.mpr hc
    have hl : ((cs ++ rest).takeWhile isNameChar).length = cs.length :=
      length_takeWhile_append_eq_iff.mpr ⟨fun d hd => isNameChar_iff.mpr (hcs d hd), hr⟩
    have hm : c ∉ starters := fun hm => not_isNameChar_of_mem_starters c hm hn
    rw [first_of_not_mem_starters hm, if_pos hn, hl]
  | lineComment =>
    obtain ⟨ds, he, hc⟩ := hs
    obtain ⟨rfl, rfl⟩ := List.cons.inj he
    have hl : (('/' :: ds ++ rest).takeWhile isCommentChar).length = ('/' :: ds).length := by
      refine length_takeWhile_append_eq_iff.mpr ⟨?_, hr⟩
      intro d hd
      rcases List.mem_cons.mp hd with rfl | hd
      · decide
      · exact isCommentChar_iff.mpr (hc d hd)
    change (Kind.lineComment, _ + 1) = _
    rw [hl]
  | singleQuoted =>
    obtain rfl := eq_of_quoted hs
    have hl := (quotedLength_append_eq_iff (by decide) (by decide)).mpr ⟨hs, hr⟩
    change (Kind.singleQuoted, _ + 1) = _
    rw [hl]
  | doubleQuoted =>
    obtain rfl := eq_of_quoted hs
    have hl := (quotedLength_append_eq_iff (by decide) (by decide)).mpr ⟨hs, hr⟩
    change (Kind.doubleQuoted, _ + 1) = _
    rw [hl]
  | unrecognized =>
    obtain ⟨d, he, hm, hn⟩ := hs
    obtain ⟨rfl, rfl⟩ := List.cons.inj he
    rw [first_of_not_mem_starters hm, if_neg (by rwa [isNameChar_iff])]
    rfl
  | endOfStream => cases hs

/-- A lexeme comes first in a text if it is spelled as its kind asks and stops before the rest. -/
theorem first_append_eq_iff (h : cs ≠ []) : first (cs ++ rest) = (kind, cs.length) ↔
    Spells kind cs ∧ Stops kind cs rest := by
  obtain ⟨c, cs, rfl⟩ := List.exists_cons_of_ne_nil h
  exact ⟨spells_of_first, fun h => first_of_spells h.1 h.2⟩

theorem ne_nil_of_spells (h : Spells kind cs) : cs ≠ [] := by
  rintro rfl
  cases kind <;> simp [Spells, Closed, Open] at h

theorem stops_nil (kind : Kind) (cs : List Char) : Stops kind cs [] := by
  cases kind <;> simp [Stops]

theorem quotedLength_le (quote : Char) (cs : List Char) : quotedLength quote cs ≤ cs.length := by
  fun_induction quotedLength quote cs <;> simp_all

theorem first_length_le (h : cs ≠ []) : (first cs).2 ≤ cs.length := by
  have ht (p : Char → Bool) (cs : List Char) : (cs.takeWhile p).length ≤ cs.length :=
    (List.takeWhile_prefix p).length_le
  fun_cases first cs <;> simp_all [quotedLength_le]

theorem spells_take_first (h : cs ≠ []) :
    Spells (first cs).1 (cs.take (first cs).2) ∧
      Stops (first cs).1 (cs.take (first cs).2) (cs.drop (first cs).2) := by
  have hlen : (cs.take (first cs).2).length = (first cs).2 :=
    List.length_take_of_le (first_length_le h)
  have hne : cs.take (first cs).2 ≠ [] := by
    apply List.ne_nil_of_length_pos
    rw [hlen]
    exact first_length_pos cs
  apply (first_append_eq_iff hne).mp
  rw [List.take_append_drop, hlen]

end Lexeme

end Verbatim
