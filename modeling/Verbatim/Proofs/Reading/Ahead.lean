import Verbatim.Proofs.Reading.Fits

/-! # Looking ahead

A tree that fits before a stream fits before every other stream with the same first token: reading
looks no further ahead than that.
-/

namespace Verbatim

open Token (Kind Stream)

namespace Token.Stream

variable {t : Token} {s : Stream}

theorem exists_cons_append : ∀ (xs : Stream) (t : Token), ∃ u us, ∀ s, xs ++ t :: s = u :: (us ++ s)
  | [], t => ⟨t, [], fun _ => rfl⟩
  | x :: xs, t => ⟨x, xs ++ [t], fun _ => by simp⟩

theorem next_append_cons (xs : Stream) (t : Token) (s s' : Stream) :
    Stream.next (xs ++ t :: s) = Stream.next (xs ++ t :: s') := by
  cases xs <;> rfl

theorem exists_cons_of_eq_append {u : Token} {xs after : Stream} (h : u :: s = xs ++ t :: after) :
    ∃ us, ∀ more, xs ++ t :: more = u :: (us ++ more) := by
  obtain ⟨v, us, hv⟩ := exists_cons_append xs t
  rw [hv] at h
  obtain ⟨rfl, -⟩ := List.cons.inj h
  exact ⟨us, hv⟩

theorem takeWhile_append_cons {p : Token → Bool} {xs : Stream}
    (h : (xs ++ t :: s).takeWhile p = xs) (s' : Stream) : (xs ++ t :: s').takeWhile p = xs := by
  have hp : ∀ u ∈ xs, p u := by
    intro u hu
    rw [← h] at hu
    exact List.mem_takeWhile_imp hu
  rw [List.takeWhile_append_of_pos hp] at h ⊢
  have ht : ¬ p t := by
    intro ht
    simp [ht] at h
  rw [List.takeWhile_cons_of_neg ht, List.append_nil]

theorem next_pastGap_append_cons (hw : ¬ t.isWhitespace) (xs s s' : Stream) :
    (Stream.pastGap (xs ++ t :: s)).next = (Stream.pastGap (xs ++ t :: s')).next := by
  induction xs with
  | nil => simp only [List.nil_append, pastGap_cons_of_not hw, next_cons]
  | cons x xs ih =>
    by_cases hx : x.isWhitespace
    · simp only [List.cons_append, pastGap_cons hx, ih]
    · simp only [List.cons_append, pastGap_cons_of_not hx, next_cons]

variable {inCall : Bool} {gap junk trailing : Stream}

theorem Recovers.not_isTrivia (h : Recovers inCall gap junk trailing (t :: s)) :
    ¬ t.isTrivia := by
  intro ht
  have hp := h.pastTrivia_eq
  have hall : ∀ u ∈ trailing, u.isTrivia := by
    intro u hu
    rw [← h.trivia_eq] at hu
    exact isTrivia_of_mem_trivia hu
  rw [pastTrivia_append hall, pastTrivia_cons ht] at hp
  have hl := s.length_pastTrivia_le
  rw [hp, List.length_cons] at hl
  omega

theorem Recovers.of_cons (h : Recovers inCall gap junk trailing (t :: s)) (s' : Stream) :
    Recovers inCall gap junk trailing (t :: s') := by
  obtain ⟨hb, hj, ht⟩ := h
  refine ⟨?_, ?_, takeWhile_append_cons ht s'⟩
  · obtain ⟨u, us, hu⟩ := exists_cons_append (gap ++ (junk ++ trailing)) t
    simp only [← List.append_assoc] at hb hu ⊢
    rw [hu] at hb ⊢
    exact hb
  · obtain ⟨u, us, hu⟩ := exists_cons_append trailing t
    rw [hu] at hj ⊢
    exact takeWhile_append_cons hj _

end Token.Stream

variable {ops : Operators}

mutual

/-- A name must not become the callee of a call; nothing else can happen to an expression. -/
theorem Expr.Fits.of_next : ∀ {e : Expr} {rest rest' : Stream}, e.Fits ops rest →
    (rest'.next.kind = .leftParen → rest.next.kind = .leftParen) → e.Fits ops rest'
  | .name _, _, _, h, hn => ⟨h.1, fun hk => h.2 (hn hk)⟩
  | .call .., _, _, ⟨hc, ho, hr, hf⟩, _ => ⟨hc, ho, hr, hf.of_cons _⟩
  | .binary left gap op trivia right, _, _, ⟨hl, hr, h⟩, hn => by
    refine ⟨hl.of_next ?_, hr.of_next hn, h⟩
    cases gap <;> exact id

theorem Phrase.Fits.of_cons : ∀ {p : Phrase} {inCall : Bool} {t : Token} {s : Stream},
    p.Fits ops inCall (t :: s) → ∀ s', p.Fits ops inCall (t :: s')
  | .mk leading core gap junk trailing, _, t, s, ⟨hl, hf, hs, hr⟩, s' => by
    have hw : ¬ t.isWhitespace := by
      intro hw
      exact hr.not_isTrivia (Token.isTrivia_of_isWhitespace hw)
    obtain ⟨u, us, hu⟩ := Stream.exists_cons_append (gap ++ (junk ++ trailing)) t
    have hp := Stream.next_pastGap_append_cons hw (gap ++ (junk ++ trailing)) s s'
    simp only [List.append_assoc] at hu hp
    refine ⟨hl, hf.of_next ?_, fun op hop => hs op (hp ▸ hop), hr.of_cons s'⟩
    rw [hu, hu]
    exact id

theorem Args.Fits.of_cons : ∀ {args : Args} {t : Token} {s : Stream},
    args.Fits ops (t :: s) → ∀ s', args.Fits ops (t :: s')
  | .nil, _, _, h, _ => .inr (h.resolve_left (List.cons_ne_nil _ _))
  | .trivia .., _, _, h, s' => ⟨h.1, h.2.of_cons s'⟩
  | .phrase p more, t, s, ⟨hl, hp, hf⟩, s' => by
    obtain ⟨u, us, hu⟩ := Stream.exists_cons_append more.tokens t
    rw [hu] at hp
    refine ⟨hl, ?_, hf.of_cons s'⟩
    rw [hu]
    exact hp.of_cons _

end

variable {inCall : Bool}

theorem Phrase.AllFit.of_cons : ∀ {ps : List Phrase} {t : Token} {s : Stream},
    AllFit ops inCall ps (t :: s) → ∀ s', AllFit ops inCall ps (t :: s')
  | [], _, _, _, _ => trivial
  | p :: ps, t, s, h, s' => by
    obtain ⟨u, us, hu⟩ := Stream.exists_cons_append (ps.flatMap tokens) t
    obtain ⟨hp, hps⟩ := h
    rw [hu] at hp
    refine ⟨?_, hps.of_cons s'⟩
    rw [hu]
    exact hp.of_cons _

theorem Phrase.allFit_append {ps qs : List Phrase} {rest : Stream} :
    AllFit ops inCall (ps ++ qs) rest ↔
      AllFit ops inCall ps (qs.flatMap tokens ++ rest) ∧ AllFit ops inCall qs rest := by
  induction ps with
  | nil => simp [AllFit]
  | cons p ps ih =>
    simp only [List.cons_append, AllFit, ih, List.flatMap_append, List.append_assoc, and_assoc]

end Verbatim
