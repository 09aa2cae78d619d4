import Verbatim.Proofs.Failure.Causes
import Verbatim.Proofs.Reading.Ahead

/-! # Final errors

An error that names a token is decided by the tokens up to that one. A run that comes to the token
does so whatever stands behind it: nothing that was read before depends on more than the tokens up
to there.
-/

namespace Verbatim

open Token (Kind Stream)

namespace Token.Stream

variable {t : Token} {s : Stream}

theorem exists_eq_cons_of_position (h : s.next.position ≠ ⟨0, 0⟩) :
    ∃ after, s = s.next :: after := by
  cases s with
  | nil => exact (h rfl).elim
  | cons t s => exact ⟨s, rfl⟩

theorem cut_operator_append (s xs : Stream) {after : Stream}
    (h : s.pastOperator.pastTrivia = xs ++ t :: after) :
    let before := s.gap ++ s.pastGap.next :: (s.pastOperator.trivia ++ xs)
    s = before ++ t :: after ∧ ∀ more, let s' : Stream := before ++ t :: more
      s'.gap = s.gap ∧ s'.pastGap.next = s.pastGap.next ∧
        s'.pastOperator.trivia = s.pastOperator.trivia ∧
        s'.pastOperator.pastTrivia = xs ++ t :: more := by
  intro before
  have hassoc (more : Stream) : before ++ t :: more =
      s.gap ++ s.pastGap.next :: (s.pastOperator.trivia ++ (xs ++ t :: more)) := by
    simp [before]
  obtain ⟨heq, hw⟩ := s.eq_gap_append_cons (h ▸ by simp)
  have hn := s.pastOperator.next_pastTrivia_not_isTrivia
  rw [h] at heq hn
  refine ⟨heq.trans (hassoc after).symm, fun more => ?_⟩
  rw [next_append_cons xs t after more] at hn
  intro s'
  rw [show s' = _ from hassoc more]
  exact cut_operator (fun _ => isWhitespace_of_mem_gap) hw (fun _ => isTrivia_of_mem_trivia) hn

end Token.Stream

namespace Grammar

def Call.onStream : Call → Stream → Call
  | .program _, s => .program s
  | .phrase depth inCall _, s => .phrase depth inCall s
  | .chain depth minimum _, s => .chain depth minimum s
  | .operand depth _, s => .operand depth s
  | .climb depth minimum left _, s => .climb depth minimum left s
  | .arguments depth _, s => .arguments depth s

variable {g : Grammar} {xs s after : Stream} {t u : Token}

section Reading

variable {depth : Nat} {minimum : UInt32} {inCall : Bool} {p : Phrase} {e : Expr}

theorem reads_phrase_append (h : Reads (g.phrase depth inCall (u :: s)) p (xs ++ t :: after)) :
    ∃ us, u :: s = p.tokens ++ xs ++ t :: after ∧ ∀ more,
      p.tokens ++ xs ++ t :: more = u :: (us ++ more) ∧
        Reads (g.phrase depth inCall (u :: (us ++ more))) p (xs ++ t :: more) := by
  obtain ⟨htok, hf, ha⟩ := g.sound.2.2.1 _ _ _ _ _ h
  rw [← List.append_assoc] at htok
  obtain ⟨us, hu⟩ := Stream.exists_cons_of_eq_append htok
  refine ⟨us, htok, fun more => ⟨hu more, ?_⟩⟩
  rw [← hu, List.append_assoc]
  obtain ⟨v, vs, hv⟩ := Stream.exists_cons_append xs t
  rw [hv] at hf ⊢
  exact reads_phrase (hf.of_cons _) ha

theorem reads_operand_append (ha : g.Allows depth)
    (h : Reads (g.operand depth s) e (xs ++ t :: after)) (more : Stream) :
    Reads (g.operand depth (e.tokens ++ xs ++ t :: more)) e (xs ++ t :: more) := by
  rw [List.append_assoc]
  rcases reads_operand_iff.mp h with ⟨ident, -, hi, hn, rfl⟩ |
    ⟨callee, opening, args, closing, mid, -, hc, ho, hr, hargs, rfl⟩
  · rw [Stream.next_append_cons xs t after more] at hn
    exact reads_operand_iff.mpr (.inl ⟨ident, rfl, hi, hn, rfl⟩)
  · obtain ⟨-, hf, hd⟩ := g.sound.2.1 _ _ ha _ _ hargs
    rw [Expr.tokens_call_append]
    exact reads_operand_iff.mpr (.inr ⟨callee, opening, args, closing, _, rfl, hc, ho, hr,
      reads_arguments (hf.of_cons _) hd, rfl⟩)

theorem reads_chain_append (ha : g.Allows depth) (ht : ¬ t.isWhitespace)
    (h : Reads (g.chain depth minimum s) e (xs ++ t :: after)) (more : Stream) :
    Reads (g.chain depth minimum (e.tokens ++ xs ++ t :: more)) e (xs ++ t :: more) := by
  obtain ⟨⟨-, hf, hd⟩, htight, hclosed, hstop⟩ := g.sound.2.2.2.1 _ _ _ ha _ _ h
  have hfits : e.Fits g.operators (xs ++ t :: more) := by
    refine hf.of_next ?_
    rw [Stream.next_append_cons xs t more after]
    exact id
  have hstops {m : UInt32} (hm : g.operators.StopsAt m (xs ++ t :: after)) :
      g.operators.StopsAt m (xs ++ t :: more) := by
    intro op hop
    rw [Stream.next_pastGap_append_cons ht xs more after] at hop
    exact hm op hop
  rw [List.append_assoc]
  exact reads_chain_of_climb ⟨hfits, hd, htight, fun q hq => hstops (hclosed q hq)⟩
    (reads_climb_iff.mpr (.inl ⟨hstops hstop, rfl, rfl⟩))

end Reading

variable {c c' : Call} {opened stack : List Frame}

/-- A call that still has `t` to read is made whatever stands behind `t`. -/
theorem Makes.onStream (hm : g.Makes c opened c') (hs : g.Stacked stack c) (ht : ¬ t.isTrivia)
    (hc : c'.stream = xs ++ t :: after) : ∃ before, c.stream = before ++ t :: after ∧
      ∀ more, g.Makes (c.onStream (before ++ t :: more)) opened
        (c'.onStream (xs ++ t :: more)) := by
  have hw : ¬ t.isWhitespace := fun h => ht (Token.isTrivia_of_isWhitespace h)
  -- what was read before the call is read again, since it fits before all that starts alike
  cases hm with
  | programPhrase =>
    obtain ⟨us, hu⟩ := Stream.exists_cons_of_eq_append hc
    refine ⟨xs, hc, fun more => ?_⟩
    rw [hu]
    exact .programPhrase
  | programProgram hp =>
    obtain rfl : _ = xs ++ t :: after := hc
    obtain ⟨us, htok, hread⟩ := reads_phrase_append hp
    refine ⟨_, htok, fun more => ?_⟩
    rw [(hread more).1]
    exact .programProgram (hread more).2
  | @phraseChain depth inCall s hd =>
    have hpast : s.pastTrivia = xs ++ t :: after := hc
    have hn := s.next_pastTrivia_not_isTrivia
    rw [hpast] at hn
    refine ⟨s.trivia ++ xs, ?_, fun more => ?_⟩
    · rw [List.append_assoc, ← hpast, s.trivia_append_pastTrivia]
      rfl
    · rw [Stream.next_append_cons xs t after more] at hn
      have hcut := (Stream.cut_trivia (fun _ h => s.isTrivia_of_mem_trivia h) hn).2
      have hmakes := @Makes.phraseChain g _ inCall _
        (checkDepth_of_allows (checkDepth_eq_ok_iff.mp hd) (s.trivia ++ (xs ++ t :: more)))
      rwa [hcut, ← List.append_assoc] at hmakes
  | chainOperand => exact ⟨xs, hc, fun _ => .chainOperand⟩
  | @chainClimb depth minimum left s _ hl =>
    obtain rfl : _ = xs ++ t :: after := hc
    obtain ⟨rfl, _⟩ := hs.within
    have htok := (g.sound.1 _ _ hs.allowed _ _ hl).1.tokens
    rw [← List.append_assoc] at htok
    exact ⟨left.tokens ++ xs, htok, fun more =>
      .chainClimb (reads_operand_append hs.allowed hl more)⟩
  | @operandArguments depth callee opening s hcallee hopening =>
    obtain rfl : s = xs ++ t :: after := hc
    exact ⟨callee :: opening :: xs, rfl, fun more => .operandArguments hcallee hopening⟩
  | @climbChain _ _ left s _ hop hle hd =>
    obtain ⟨heq, hcut⟩ := s.cut_operator_append xs hc
    refine ⟨_, heq, fun more => ?_⟩
    obtain ⟨-, hnext, -, hpast⟩ := hcut more
    rw [← hnext] at hop
    have hmakes := @Makes.climbChain g _ _ left _ _ hop hle
      (checkDepth_of_allows (checkDepth_eq_ok_iff.mp hd) _)
    rwa [hpast] at hmakes
  | @climbClimb depth minimum left right s _ op hop hle hd hr =>
    obtain rfl : _ = xs ++ t :: after := hc
    have hallows := checkDepth_eq_ok_iff.mp hd
    have htok := (g.sound.2.2.2.1 _ _ _ hallows _ _ hr).1.tokens
    rw [← List.append_assoc] at htok
    obtain ⟨heq, hcut⟩ := s.cut_operator_append _ htok
    refine ⟨_, heq, fun more => ?_⟩
    obtain ⟨hgap, hnext, htrivia, hpast⟩ := hcut more
    have hread := reads_chain_append hallows hw hr more
    rw [← hpast] at hread
    rw [← hnext] at hop
    have hmakes := @Makes.climbClimb g _ _ left _ _ _ _ hop hle
      (checkDepth_of_allows hallows _) hread
    rwa [hgap, hnext, htrivia] at hmakes
  | @argumentsTrivia depth u s hu =>
    obtain rfl : s = xs ++ t :: after := hc
    exact ⟨u :: xs, rfl, fun more => .argumentsTrivia hu⟩
  | argumentsPhrase hr hu =>
    obtain ⟨us, hus⟩ := Stream.exists_cons_of_eq_append hc
    refine ⟨xs, hc, fun more => ?_⟩
    rw [hus]
    exact .argumentsPhrase hr hu
  | argumentsArguments hr hu hp =>
    obtain rfl : _ = xs ++ t :: after := hc
    obtain ⟨us, htok, hread⟩ := reads_phrase_append hp
    refine ⟨_, htok, fun more => ?_⟩
    rw [(hread more).1]
    exact .argumentsArguments hr hu (hread more).2

theorem Runs.onStream {tokens : List Token} (h : g.Runs (.program tokens) stack c)
    (ht : ¬ t.isTrivia) (hc : c.stream = xs ++ t :: after) : ∃ before,
      tokens = before ++ t :: after ∧ ∀ more, g.Runs (.program (before ++ t :: more)) stack
        (c.onStream (xs ++ t :: more)) := by
  induction h generalizing xs with
  | start => exact ⟨xs, hc, fun _ => .start⟩
  | step hr hm ih =>
    obtain ⟨ys, hys, hmakes⟩ := hm.onStream hr.stacked ht hc
    obtain ⟨before, hb, hruns⟩ := ih hys
    exact ⟨before, hb, fun more => (hruns more).step (hmakes more)⟩

/-- The error `e` names the token `t`, of which nothing is read yet. -/
def Names (g : Grammar) (e : ParseError) (t : Token) : Prop :=
  e = .noProductionAt t ∨ ∃ limit, g.depthLimit = some limit ∧ e = .tooDeepAt limit t

theorem Raises.onStream {tokens : List Token} {e : ParseError} (h : g.Raises e c)
    (hr : g.Runs (.program tokens) stack c) (hl : g.Allows 1) (hp : e.position ≠ ⟨0, 0⟩) :
    ∃ xs t after, c.stream = xs ++ t :: after ∧ ¬ t.isTrivia ∧ g.Names e t ∧
      ∀ more, g.Raises e (c.onStream (xs ++ t :: more)) := by
  have hskip := hr.skipsTrivia
  cases h with
  | @expression depth inCall s hd =>
    obtain ⟨limit, hlim, hle, rfl⟩ := checkDepth_eq_error_iff.mp hd
    obtain ⟨after, hs⟩ := Stream.exists_eq_cons_of_position hp
    have hpos := hl limit hlim
    have ht : ¬ s.next.isTrivia := hskip.resolve_left (by omega)
    refine ⟨[], s.next, after, hs, ht, .inr ⟨limit, hlim, rfl⟩, fun more => .expression ?_⟩
    exact checkDepth_eq_error_iff.mpr ⟨limit, hlim, hle, rfl⟩
  | @right depth minimum left s op hop hle hd =>
    obtain ⟨limit, hlim, hdep, rfl⟩ := checkDepth_eq_error_iff.mp hd
    obtain ⟨after, hs⟩ := Stream.exists_eq_cons_of_position hp
    obtain ⟨heq, hcut⟩ := s.cut_operator_append [] hs
    refine ⟨_, _, after, heq, s.pastOperator.next_pastTrivia_not_isTrivia,
      .inr ⟨limit, hlim, rfl⟩, fun more => ?_⟩
    obtain ⟨-, hnext, -, hpast⟩ := hcut more
    rw [← hnext] at hop
    refine .right hop hle (checkDepth_eq_error_iff.mpr ⟨limit, hlim, hdep, ?_⟩)
    rw [hpast]
    rfl
  | @noProduction depth s hi he =>
    subst he
    obtain ⟨after, hs⟩ := Stream.exists_eq_cons_of_position hp
    exact ⟨[], s.next, after, hs, hskip, .inl rfl, fun more => .noProduction hi rfl⟩
  | unclosed _ _ ha hn he =>
    subst he
    obtain ⟨rfl, -⟩ := hr.eq_nil_of_unclosed ha hn
    exact (hp rfl).elim

end Grammar

namespace Block

open Grammar

/-- An error that has the position of a token is decided by the tokens up to that one: it does not
depend on those that follow, and remains when more are put behind them. -/
theorem parse_append_of_error (ops : Operators) (tokens : List Token) (e : ParseError)
    (h : parse { operators := ops } tokens = .error e) (hp : e.position ≠ ⟨0, 0⟩) :
    (∀ more, parse { operators := ops } (tokens ++ more) = .error e) ∧
    ∃ before t after, tokens = before ++ t :: after ∧ Names { operators := ops } e t ∧
      ∀ more, parse { operators := ops } (before ++ t :: more) = .error e := by
  obtain ⟨stack, c, hr, hc⟩ := program_eq_error_iff.mp (parse_eq_error_iff.mp h)
  obtain ⟨xs, t, after, hstream, ht, hn, hraises⟩ :=
    hc.onStream hr (allows_maxDepth_iff.mpr (by decide)) hp
  obtain ⟨before, rfl, hruns⟩ := hr.onStream ht hstream
  have herror (more : List Token) : parse { operators := ops } (before ++ t :: more) = .error e :=
    parse_eq_error_iff.mpr (program_eq_error_iff.mpr ⟨stack, _, hruns more, hraises more⟩)
  refine ⟨fun more => ?_, before, t, after, rfl, hn, herror⟩
  rw [List.append_assoc]
  exact herror (after ++ more)

/-- A closing parenthesis in the place of an operand. -/
theorem parse_append_of_error_slash :
    let g : Grammar := { operators := .ofList [(.slash, ⟨1, .left⟩)] }
    let e : ParseError := .noProduction .rightParen ")" ⟨0, 7⟩
    parse g (tokenize "f(a / ) b") = .error e ∧ e.position ≠ ⟨0, 0⟩ ∧
      ∀ more, parse g (tokenize "f(a / ) b" ++ more) = .error e := by
  intro g e
  have he : parse g (tokenize "f(a / ) b") = .error e :=
    eq_error_of_map (f := fun _ => ()) (by decide +kernel)
  have hp : e.position ≠ ⟨0, 0⟩ := by decide
  exact ⟨he, hp, (parse_append_of_error g.operators _ e he hp).1⟩

end Block

end Verbatim
