import Verbatim.Proofs.Block.Parse
import Verbatim.Proofs.Reading.Ahead

/-! # Programs one after the other

A program that ends with the end of a line is read in the same way whatever comes after it. So a
text can be parsed in parts that are cut at ends of lines: the block of the second part is moved
behind that of the first, where its terms count their places and references from.
-/

namespace Verbatim

open Token (Kind Stream)

def Ref.shift (n : Nat) : Ref → Ref
  | named name => .named name
  | indexed i => .indexed (n + i)

namespace Term

def shiftInputs (n : Nat) (t : Term) : Term :=
  { t with inputs := t.inputs.map (Ref.shift n) }

/-- A term of a block that `n` terms were put before. -/
def shift (n : Nat) (t : Term) : Term :=
  { t.shiftInputs n with index := n + t.index }

end Term

/-- A block that `n` terms were put before. -/
def Block.shift (n : Nat) (b : Block) : Block :=
  b.map (Term.shift n)

mutual

theorem Expr.terms_add (k n : Nat) : ∀ e : Expr,
    (e.terms (k + n)).1 = Block.shift k (e.terms n).1 ∧
      (e.terms (k + n)).2 = (e.terms n).2.shiftInputs k
  | .name ident => ⟨rfl, rfl⟩
  | .call callee opening args closing => by
    obtain ⟨hb, hr, ht⟩ := args.terms_add k n
    simp [Expr.terms, hb, hr, ht, Term.shiftInputs, Ref.shift]
  | .binary left gap op trivia right => by
    obtain ⟨hbl, hl⟩ := left.terms_add k n
    obtain ⟨hbr, hr⟩ := right.terms_add k (n + (left.terms n).1.length)
    simp [Expr.terms, hbl, hl, hbr, hr, Block.shift, Term.shift, Term.shiftInputs, Ref.shift,
      Nat.add_assoc]

theorem Phrase.terms_add (k n : Nat) : ∀ p : Phrase,
    (p.terms (k + n)).1 = Block.shift k (p.terms n).1 ∧
      (p.terms (k + n)).2 = (p.terms n).2.shift k
  | .mk leading core gap junk trailing => by
    obtain ⟨hb, ht⟩ := core.terms_add k n
    simp [Phrase.terms, hb, ht, Block.shift, Term.shift, Term.shiftInputs, Nat.add_assoc]

theorem Args.terms_add (k n : Nat) : ∀ args : Args,
    (args.terms (k + n)).1 = Block.shift k (args.terms n).1 ∧
      (args.terms (k + n)).2.1 = (args.terms n).2.1.map (Ref.shift k) ∧
      (args.terms (k + n)).2.2 = (args.terms n).2.2
  | .nil => ⟨rfl, rfl, rfl⟩
  | .trivia t more => by
    obtain ⟨hb, hr, ht⟩ := more.terms_add k n
    exact ⟨hb, hr, congrArg (t.sourceText ++ ·) ht⟩
  | .phrase p more => by
    obtain ⟨hbp, hp⟩ := p.terms_add k n
    obtain ⟨hb, hr, ht⟩ := more.terms_add k (n + (p.terms n).1.length + 1)
    rw [← Nat.add_assoc, ← Nat.add_assoc] at hb hr ht
    simp [Args.terms, hbp, hp, hb, hr, ht, Block.shift, Term.shift, Term.shiftInputs, Ref.shift]

end

namespace Block

theorem ofPhrases_add (k n : Nat) (ps : List Phrase) :
    ofPhrases (k + n) ps = shift k (ofPhrases n ps) := by
  induction ps generalizing n with
  | nil => rfl
  | cons p ps ih =>
    obtain ⟨hb, ht⟩ := p.terms_add k n
    have hn := ih (n + (p.terms n).1.length + 1)
    rw [← Nat.add_assoc, ← Nat.add_assoc] at hn
    simp only [ofPhrases, hb, ht, shift, List.length_map, List.map_append, List.map_cons] at hn ⊢
    rw [hn]

end Block

section LineEnd

variable {ops : Operators} {inCall : Bool} {s : Stream}

theorem Expr.Fits.exists_last : ∀ {e : Expr} {rest : Stream}, e.Fits ops rest →
    ∃ ts t, e.tokens = ts ++ [t] ∧ (t.kind = .identifier ∨ t.kind = .rightParen)
  | .name ident, _, h => ⟨[], ident, rfl, .inl h.1⟩
  | .call callee opening args closing, _, h =>
    ⟨callee :: opening :: args.tokens, closing, rfl, .inr h.2.2.1⟩
  | .binary left gap op trivia right, _, h => by
    obtain ⟨ts, t, ht, hk⟩ := exists_last h.2.1
    exact ⟨left.tokens ++ gap ++ op :: (trivia ++ ts), t, by simp [Expr.tokens, ht], hk⟩

namespace Phrase

theorem Fits.exists_trailing {leading gap junk trailing rest : Stream} {core : Expr}
    (h : (mk leading core gap junk trailing).Fits ops inCall rest)
    (hn : ∀ t ∈ (mk leading core gap junk trailing).tokens.getLast?, t.kind = .newline) :
    ∃ front t, trailing = front ++ [t] ∧ t.kind = .newline := by
  obtain ⟨_, hf, _, hr⟩ := h
  have hlast (xs : List Token) (t : Token)
      (ht : (mk leading core gap junk trailing).tokens = xs ++ [t]) : t.kind = .newline := by
    apply hn
    rw [ht]
    exact List.getLast?_concat
  have hgap : ∀ t ∈ gap, t.kind ≠ .newline := by
    intro t ht hk
    rw [← hr.blank_eq] at ht
    simpa [Token.isWhitespace, hk] using List.mem_takeWhile_imp ht
  have hjunk : ∀ t ∈ junk, t.kind ≠ .newline := by
    intro t ht hk
    rw [← hr.junk_eq] at ht
    simpa [Token.canFollow, hk, Kind.isTrivia] using List.mem_takeWhile_imp ht
  rcases List.eq_nil_or_concat' trailing with rfl | ⟨front, t, rfl⟩
  · exfalso
    rcases List.eq_nil_or_concat' (gap ++ junk) with he | ⟨xs, t, he⟩
    · obtain ⟨ts, t, ht, hk⟩ := hf.exists_last
      obtain ⟨rfl, rfl⟩ := List.append_eq_nil_iff.mp he
      have := hlast (leading ++ ts) t (by simp [tokens, ht])
      simp [this] at hk
    · have hk := hlast (leading ++ core.tokens ++ xs) t (by simp [tokens, ← he])
      have hm : t ∈ gap ++ junk := he ▸ List.mem_concat_self
      rcases List.mem_append.mp hm with hm | hm
      exacts [hgap t hm hk, hjunk t hm hk]
  · exact ⟨front, t, rfl, hlast (leading ++ core.tokens ++ gap ++ junk ++ front) t
      (by simp [tokens])⟩

theorem Fits.of_newline {p : Phrase} (h : p.Fits ops inCall [])
    (hn : ∀ t ∈ p.tokens.getLast?, t.kind = .newline) (hs : ¬ s.next.isTrivia) :
    p.Fits ops inCall s := by
  obtain ⟨leading, core, gap, junk, trailing⟩ := p
  obtain ⟨front, t, rfl, ht⟩ := h.exists_trailing hn
  obtain ⟨hl, hf, hstop, hb, hj, htr⟩ := h
  have htrivia : ∀ u ∈ front ++ [t], u.isTrivia := by
    intro u hu
    rw [← htr] at hu
    exact Stream.isTrivia_of_mem_trivia hu
  have hw : ¬ t.isWhitespace := by simp [Token.isWhitespace, ht]
  -- nothing looks further than to the end of the line, which is there before either rest
  obtain ⟨u, us, hu⟩ := Stream.exists_cons_append (gap ++ (junk ++ front)) t
  obtain ⟨v, vs, hv⟩ := Stream.exists_cons_append front t
  have hp := Stream.next_pastGap_append_cons hw (gap ++ (junk ++ front)) [] s
  refine ⟨hl, ?_, ?_, ?_, ?_, (Stream.cut_trivia htrivia hs).1⟩
  all_goals simp only [List.append_assoc, List.singleton_append] at hu hv hp hf hstop hb hj ⊢
  · apply hf.of_next
    rw [hu, hu]
    exact id
  · intro op hop
    exact hstop op (hp ▸ hop)
  · rw [hu] at hb ⊢
    exact hb
  · rw [hv] at hj ⊢
    exact Stream.takeWhile_append_cons hj _

theorem AllFit.of_newline {ps : List Phrase} (h : AllFit ops inCall ps [])
    (hn : ∀ t ∈ (ps.flatMap tokens).getLast?, t.kind = .newline) (hs : ¬ s.next.isTrivia) :
    AllFit ops inCall ps s := by
  rcases List.eq_nil_or_concat' ps with rfl | ⟨qs, p, rfl⟩
  · trivial
  · obtain ⟨hqs, hp, _⟩ := allFit_append.mp h
    obtain ⟨t, ts, ht⟩ := List.exists_cons_of_ne_nil hp.tokens_ne_nil
    have hlast : ∀ t ∈ p.tokens.getLast?, t.kind = .newline := by
      intro u hu
      apply hn
      rw [List.flatMap_append, List.flatMap_singleton, List.getLast?_append, hu]
      rfl
    refine allFit_append.mpr ⟨?_, hp.of_newline hlast hs, trivial⟩
    rw [List.flatMap_singleton, ht, List.cons_append] at hqs ⊢
    exact hqs.of_cons _

end Phrase

end LineEnd

namespace Block

variable {g : Grammar} {ts us : List Token} {b : Block}

/-- A program that is empty or ends with the end of a line, and one that does not start with trivia:
what becomes of the two together is what becomes of the second, moved behind the block of the
first. -/
theorem parse_append_of_newline (hts : ∀ t ∈ ts.getLast?, t.kind = .newline)
    (hus : ∀ u ∈ us.head?, ¬ u.isTrivia) (hb : parse g ts = .ok b) :
    parse g (ts ++ us) = (parse g us).map fun b' => b ++ b'.shift b.length := by
  obtain ⟨ps, hps, rfl⟩ := parse_eq_ok_iff.mp hb
  obtain ⟨rfl, hf, ha⟩ := Grammar.program_eq_ok_iff.mp hps
  have hs : ¬ (Stream.next us).isTrivia := by
    cases us with
    | nil => decide
    | cons u us => exact hus u rfl
  rw [parse, Grammar.program_append (hf.of_newline hts hs) ha, parse]
  cases g.program us with
  | error e => rfl
  | ok qs =>
    have hq := ofPhrases_add (ofPhrases 0 ps).length 0 qs
    have happ := ofPhrases_append 0 ps qs
    rw [Nat.zero_add] at happ
    rw [Nat.add_zero] at hq
    exact congrArg Except.ok (happ.trans (by rw [hq]))

/-- A program over several lines, with an operator and skipped tokens, before one that can be read
and before one that cannot. -/
theorem parse_append_of_newline_junk :
    let g : Grammar := { operators := .ofList [(.slash, ⟨1, .left⟩)] }
    let ts := tokenize "a / f(b [\n c) ] \n"
    ∃ b, parse g ts = .ok b ∧ b.length = 5 ∧
      (∃ b', parse g (tokenize "d /\n e") = .ok b' ∧
        parse g (ts ++ tokenize "d /\n e") = .ok (b ++ b'.shift 5)) ∧
      ∃ e, parse g (tokenize ")") = .error e ∧ parse g (ts ++ tokenize ")") = .error e := by
  intro g ts
  have hts : ∀ t ∈ ts.getLast?, t.kind = .newline := by decide +kernel
  obtain ⟨b, hb, hlen⟩ := exists_of_any (x := parse g ts) (p := fun b => b.length == 5)
    (by decide +kernel)
  obtain ⟨b', hb'⟩ : ∃ b', parse g (tokenize "d /\n e") = .ok b' :=
    exists_of_isOk (by decide +kernel)
  obtain ⟨e, he⟩ : ∃ e, parse g (tokenize ")") = .error e :=
    exists_of_not_isOk (by decide +kernel)
  refine ⟨b, hb, beq_iff_eq.mp hlen, ⟨b', hb', ?_⟩, e, he, ?_⟩
  · rw [parse_append_of_newline hts (by decide +kernel) hb, hb', ← beq_iff_eq.mp hlen]
    rfl
  · rw [parse_append_of_newline hts (by decide +kernel) hb, he]
    rfl

end Block

end Verbatim
