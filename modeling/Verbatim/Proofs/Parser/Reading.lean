import Verbatim.Proofs.Parser.Moves

/-! # What a parser reads

The actions of a parser come to what is read from the tokens ahead: they end, fail with the same
errors, leave the same tokens and place the terms of the trees behind those that are there already.
A whole run gives the block of the tokens.
-/

namespace Verbatim

open Token (Kind Stream)

namespace Parser

def upTo (s : Parser) (rest : Stream) (ts : List Term) : Parser :=
  (s.skip (s.ahead.length - rest.length)).place ts

section UpTo

variable {s : Parser} {mid rest : Stream} {ts us : List Term} {k : Nat}

@[simp] theorem depth_upTo : (s.upTo rest ts).depth = s.depth := rfl

@[simp] theorem inCall_upTo : (s.upTo rest ts).inCall = s.inCall := rfl

@[simp] theorem block_upTo : (s.upTo rest ts).block = s.block ++ ts := rfl

theorem upTo_withDepth (depth : Nat) :
    (s.withDepth depth).upTo rest ts = (s.upTo rest ts).withDepth depth := rfl

theorem upTo_withCalls (openCalls : Nat) :
    (s.withCalls openCalls).upTo rest ts = (s.upTo rest ts).withCalls openCalls := rfl

theorem withDepth_upTo : (s.upTo rest ts).withDepth s.depth = s.upTo rest ts := rfl

theorem place_upTo : (s.upTo rest ts).place us = s.upTo rest (ts ++ us) :=
  place_place ..

theorem ahead_upTo (h : rest <:+ s.ahead) (ts : List Term) : (s.upTo rest ts).ahead = rest := by
  rw [upTo, ahead_place, ahead_skip]
  exact (List.suffix_iff_eq_drop.mp h).symm

theorem upTo_ahead (s : Parser) : s.upTo s.ahead [] = s := by
  simp [upTo]

theorem upTo_skip (h : k + rest.length ≤ s.ahead.length) :
    (s.skip k).upTo rest ts = s.upTo rest ts := by
  have hk : k + (s.ahead.length - k - rest.length) = s.ahead.length - rest.length := by omega
  rw [upTo, skip_skip, ahead_skip, List.length_drop, hk, upTo]

theorem upTo_upTo (hm : mid <:+ s.ahead) (hr : rest.length ≤ mid.length) :
    (s.upTo mid ts).upTo rest us = s.upTo rest (ts ++ us) := by
  have hle := hm.length_le
  have hk : s.ahead.length - mid.length + (mid.length - rest.length) =
      s.ahead.length - rest.length := by omega
  rw [upTo, ahead_upTo hm, upTo, skip_place, skip_skip, hk, place_place, upTo]

theorem skip_upTo (hm : mid <:+ s.ahead) (hk : k ≤ mid.length) :
    (s.upTo mid ts).skip k = s.upTo (mid.drop k) ts := by
  have hle := hm.length_le
  have hn : s.ahead.length - mid.length + k = s.ahead.length - (mid.drop k).length := by
    rw [List.length_drop]
    omega
  rw [upTo, skip_place, skip_skip, hn, upTo]

theorem skip_eq_upTo (front : List Token) (h : s.ahead = front ++ rest) :
    s.skip front.length = s.upTo rest [] := by
  rw [upTo, place_nil, h, List.length_append, Nat.add_sub_cancel]

theorem skip_upTo_recovered (hm : mid <:+ s.ahead) (inCall : Bool) (ts : List Term) :
    (s.upTo mid ts).skip (mid.blank.length + (mid.pastBlank.junk inCall).length +
        (Stream.trivia (mid.pastBlank.pastJunk inCall)).length) =
      s.upTo (Stream.pastTrivia (mid.pastBlank.pastJunk inCall)) ts := by
  have hs := congrArg List.length (mid.recovers_self inCall).2
  simp only [List.length_append] at hs
  rw [skip_upTo hm (by omega), ← List.drop_drop, Stream.drop_length_junk, Stream.drop_length_trivia]

end UpTo

/-- The outcome is what `r` reads from the tokens ahead of `s`: the result and the terms that were
placed since are those of the tree. -/
structure Yields {α β : Type} {n : Nat} (s : Parser)
    (outcome : Option (Except ParseError (β × Parser))) (r : Except ParseError (Parsed α n))
    (terms : α → List Term × β) : Prop where
  reads : ∀ a rest, Reads r a rest →
    outcome = some (.ok ((terms a).2, s.upTo rest (terms a).1))
  fails : ∀ e, r = .error e → outcome = some (.error e)

section Steps

open Grammar

variable {s : Parser} {g : Grammar} {depth n : Nat} {minimum : UInt32} {inCall : Bool} {t : Token}
  {ts : Stream} {left : Expr}

/-! The rounds that are enough: three for each token, and some more where a function is called
before any token is read. -/

variable (g) in
def OperandYields (depth : Nat) (ts : Stream) : Prop :=
  ∀ (s : Parser) (n : Nat), s.ahead = ts → s.depth = depth → 3 * ts.length + 1 ≤ n →
    s.Yields (s.run (operand g n)) (g.operand depth ts) (Expr.terms s.block.length)

variable (g) in
def ArgumentsYield (depth : Nat) (ts : Stream) : Prop :=
  ∀ (s : Parser) (text : String) (refs : List Ref) (n : Nat), s.ahead = ts → s.depth = depth →
    s.inCall → 3 * ts.length + 4 ≤ n →
    s.Yields (s.run (arguments g text refs n)) (g.arguments depth ts) fun args =>
      ((args.terms s.block.length).1, text ++ (args.terms s.block.length).2.2,
        refs ++ (args.terms s.block.length).2.1)

variable (g) in
def PhraseYields (depth : Nat) (inCall : Bool) (ts : Stream) : Prop :=
  ∀ (s : Parser) (n : Nat), s.ahead = ts → s.depth = depth → s.inCall = inCall →
    3 * ts.length + 3 ≤ n →
    s.Yields (s.run (phrase g n)) (g.phrase depth inCall ts) fun p =>
      ((p.terms s.block.length).1 ++ [(p.terms s.block.length).2], (p.terms s.block.length).2.index)

variable (g) in
def ChainYields (depth : Nat) (minimum : UInt32) (ts : Stream) : Prop :=
  ∀ (s : Parser) (n : Nat), s.ahead = ts → s.depth = depth → 3 * ts.length + 2 ≤ n →
    s.Yields (s.run (chain g minimum n)) (g.chain depth minimum ts) (Expr.terms s.block.length)

variable (g) in
def ClimbYields (depth : Nat) (minimum : UInt32) (left : Expr) (ts : Stream) : Prop :=
  ∀ (s : Parser) (n : Nat), ts <:+ s.ahead → s.depth = depth → 3 * ts.length + 3 ≤ n →
    s.Yields ((s.upTo ts (left.terms s.block.length).1).run
        (climb g minimum (left.terms s.block.length).2 n))
      (g.climb depth minimum left ts) (Expr.terms s.block.length)

section Calls

variable {callee opening : Token} {mid rest : Stream} {args : Args} {e : ParseError}

theorem ahead_of_call (hs : s.ahead = callee :: opening :: mid) (openCalls : Nat) :
    ((s.skip 2).withCalls openCalls).ahead = mid := by
  rw [ahead_withCalls, ahead_skip, hs]
  rfl

theorem inCall_withCalls_succ (s : Parser) (openCalls : Nat) :
    (s.withCalls (openCalls + 1)).inCall := by
  simp [inCall]

variable (hs : s.ahead = callee :: opening :: mid) (hc : callee.kind = .identifier)
  (ho : opening.kind = .leftParen) (h : ArgumentsYield g s.depth mid)
  (hn : 3 * mid.length + 4 ≤ n)

include hs hc ho

theorem run_operand_of_cons : s.run (operand g (n + 1)) = s.run (call g n) :=
  run_operand_of_call (by rwa [hs]) (by rwa [hs])

include h hn

theorem run_operand_of_error (he : g.arguments s.depth mid = .error e) :
    s.run (operand g (n + 2)) = some (.error e) := by
  rw [run_operand_of_cons hs hc ho, run_call hs hc ho, run_bind,
    (h _ _ _ _ (ahead_of_call hs _) rfl (inCall_withCalls_succ ..) hn).fails e he]

theorem run_operand_of_reads (ha : Reads (g.arguments s.depth mid) args rest) :
    s.run (operand g (n + 2)) = (s.upTo rest (args.terms s.block.length).1).run (do
      let closing ← consumeText .rightParen
      return ⟨.call, 0, .named callee.sourceText :: (args.terms s.block.length).2.1, none,
        callee.sourceText ++ opening.sourceText ++ (args.terms s.block.length).2.2 ++ closing,
        none⟩) := by
  have hrun := (h ((s.skip 2).withCalls (s.openCalls + 1))
    (callee.sourceText ++ opening.sourceText) [.named callee.sourceText] n (ahead_of_call hs _) rfl
    (inCall_withCalls_succ ..) hn).reads args rest ha
  have hlength : 2 + rest.length ≤ s.ahead.length := by
    have := ha.length_lt
    rw [hs, List.length_cons, List.length_cons]
    omega
  rw [upTo_withCalls, upTo_skip hlength] at hrun
  rw [run_operand_of_cons hs hc ho, run_call hs hc ho, run_bind_of_ok hrun,
    run_bind_of_ok (run_closeCall ..)]
  rfl

end Calls

theorem operandYields (ih : ∀ callee opening mid, ts = callee :: opening :: mid →
    callee.kind = .identifier → opening.kind = .leftParen → ArgumentsYield g depth mid) :
    OperandYields g depth ts := by
  rintro s n rfl rfl hn
  obtain _ | n := n
  · omega
  have hsuffix {callee opening : Token} {mid rest : Stream} {args : Args}
      (hs : s.ahead = callee :: opening :: mid) (ha : Reads (g.arguments s.depth mid) args rest) :
      rest <:+ s.ahead :=
    hs ▸ (suffix_of_reads_arguments ha).trans (List.suffix_append [callee, opening] mid)
  have hrounds {callee opening : Token} {mid : Stream} (hs : s.ahead = callee :: opening :: mid) :
      ∃ m, n = m + 1 ∧ 3 * mid.length + 4 ≤ m := by
    simp only [hs, List.length_cons] at hn
    exact ⟨n - 1, by omega, by omega⟩
  constructor
  · intro e rest h
    rcases reads_operand_iff.mp h with ⟨ident, hs, hi, hn, rfl⟩ |
      ⟨callee, opening, args, closing, mid, hs, hc, ho, hr, ha, rfl⟩
    · have hskip := skip_eq_upTo [ident] hs
      rw [run_operand_of_name (by rwa [hs]) (by rwa [hs])]
      simp [Expr.terms, hs, ← hskip]
    · obtain ⟨m, rfl, hm⟩ := hrounds hs
      have hskip : (s.upTo (closing :: rest) (args.terms s.block.length).1).skip 1 =
          s.upTo rest (args.terms s.block.length).1 := by
        rw [skip_upTo (hsuffix hs ha) (by simp), List.drop_one, List.tail_cons]
      rw [run_operand_of_reads hs hc ho (ih _ _ _ hs hc ho) hm ha]
      simp [run_consumeText, ahead_upTo (hsuffix hs ha), hr, Expr.terms, hskip]
  · intro e h
    rcases operand_eq_error_iff.mp h with
      ⟨hi, rfl⟩ | ⟨callee, opening, mid, hs, hc, ho, h | ⟨args, rest, ha, hr, rfl⟩⟩
    · exact run_operand_of_ne hi
    · obtain ⟨m, rfl, hm⟩ := hrounds hs
      exact run_operand_of_error hs hc ho (ih _ _ _ hs hc ho) hm h
    · obtain ⟨m, rfl, hm⟩ := hrounds hs
      rw [run_operand_of_reads hs hc ho (ih _ _ _ hs hc ho) hm ha]
      simp [run_consumeText, ahead_upTo (hsuffix hs ha), hr]

theorem argumentsYield_nil : ArgumentsYield g depth [] := by
  rintro s text refs n hs - - hn
  obtain _ | n := n
  · omega
  constructor
  · intro args rest h
    obtain ⟨rfl, rfl⟩ := reads_arguments_nil_iff.mp h
    rw [run_arguments_of_end (.inr hs)]
    simp [Args.terms, ← hs, upTo_ahead]
  · intro e h
    exact (arguments_nil_ne_error h).elim

theorem getElem?_upTo_terms (s : Parser) (p : Phrase) (rest : Stream) :
    (s.upTo rest ((p.terms s.block.length).1 ++ [(p.terms s.block.length).2])).block[
      (p.terms s.block.length).2.index]? = some (p.terms s.block.length).2 := by
  rw [block_upTo, ← List.append_assoc, p.index_terms, ← List.length_append,
    List.getElem?_concat_length]

theorem run_arguments_of_reads {p : Phrase} {mid : Stream} {text : String} {refs : List Ref}
    (hs : s.ahead = t :: ts) (hr : t.kind ≠ .rightParen) (hi : ¬ t.isTrivia)
    (hp : PhraseYields g s.depth true (t :: ts)) (hcall : s.inCall)
    (hn : 3 * (t :: ts).length + 3 ≤ n) (h : Reads (g.phrase s.depth true (t :: ts)) p mid) :
    s.run (arguments g text refs (n + 1)) =
      (s.upTo mid ((p.terms s.block.length).1 ++ [(p.terms s.block.length).2])).run
        (arguments g (text ++ (p.terms s.block.length).2.text)
          (refs ++ [.indexed (p.terms s.block.length).2.index]) n) := by
  have hnext : s.ahead.next = t := by rw [hs, Stream.next_cons]
  rw [run_arguments_of_phrase (hnext ▸ hr) (by simp [hs]) (hnext ▸ hi),
    run_bind_of_ok ((hp s n hs rfl hcall hn).reads p mid h),
    run_bind_of_ok (run_textAt _ (s.getElem?_upTo_terms p mid))]

theorem argumentsYield_cons (ht : t.isTrivia → ArgumentsYield g depth ts)
    (hp : t.kind ≠ .rightParen → ¬ t.isTrivia → PhraseYields g depth true (t :: ts) ∧
      ∀ mid : Stream, mid.length < (t :: ts).length → ArgumentsYield g depth mid) :
    ArgumentsYield g depth (t :: ts) := by
  rintro s text refs n hs rfl hcall hn
  obtain _ | n := n
  · omega
  have hnext : s.ahead.next = t := by rw [hs, Stream.next_cons]
  have hskip : (s.skip 1).ahead = ts := by rw [ahead_skip, hs, List.drop_one, List.tail_cons]
  have hphrase : 3 * (t :: ts).length + 3 ≤ n := by omega
  have hmore (mid : Stream) (h : mid.length < (t :: ts).length) : 3 * mid.length + 4 ≤ n := by
    omega
  have htrivia (hi : t.isTrivia) :=
    ht hi (s.skip 1) (text ++ t.sourceText) refs n hskip rfl hcall (hmore ts (by simp))
  constructor
  · intro args rest h
    rcases reads_arguments_cons_iff.mp h with ⟨hr, rfl, rfl⟩ | ⟨hi, more, hreads, rfl⟩ |
      ⟨hr, hi, p, mid, more, hph, hreads, rfl⟩
    · rw [run_arguments_of_end (.inl (hnext ▸ hr)), ← hs]
      simp [Args.terms, upTo_ahead]
    · have hlength : 1 + rest.length ≤ s.ahead.length := by
        have := hreads.length_lt
        rw [hs, List.length_cons]
        omega
      rw [run_arguments_of_trivia (hnext ▸ hi), hnext, (htrivia hi).reads more rest hreads,
        upTo_skip hlength]
      simp [Args.terms, String.append_assoc]
    · obtain ⟨hp, hm⟩ := hp hr hi
      have hmid : mid <:+ s.ahead := hs ▸ suffix_of_reads_phrase hph
      have hlength : rest.length ≤ mid.length := Nat.le_of_lt_succ hreads.length_lt
      rw [run_arguments_of_reads hs hr hi hp hcall hphrase hph,
        (hm mid hph.length_lt _ _ _ n (ahead_upTo hmid _) rfl hcall
          (hmore mid hph.length_lt)).reads more rest hreads, upTo_upTo hmid hlength]
      simp [Args.terms, String.append_assoc, Nat.add_assoc]
  · intro e h
    rcases arguments_cons_eq_error_iff.mp h with ⟨hi, h⟩ | ⟨hr, hi, h | ⟨p, mid, hph, h⟩⟩
    · rw [run_arguments_of_trivia (hnext ▸ hi), hnext]
      exact (htrivia hi).fails e h
    · have hrun := ((hp hr hi).1 s n hs rfl hcall hphrase).fails e h
      rw [run_arguments_of_phrase (hnext ▸ hr) (by simp [hs]) (hnext ▸ hi), run_bind, hrun]
    · obtain ⟨hp, hm⟩ := hp hr hi
      have hmid : mid <:+ s.ahead := hs ▸ suffix_of_reads_phrase hph
      rw [run_arguments_of_reads hs hr hi hp hcall hphrase hph]
      exact (hm mid hph.length_lt _ _ _ n (ahead_upTo hmid _) rfl hcall
        (hmore mid hph.length_lt)).fails e h

theorem phraseYields (ih : ChainYields g (depth + 1) 0 ts.pastTrivia) :
    PhraseYields g depth inCall ts := by
  rintro s n rfl rfl rfl hn
  obtain _ | n := n
  · omega
  have htrivia : (s.skip s.ahead.trivia.length).ahead = s.ahead.pastTrivia := by
    rw [ahead_skip, Stream.drop_length_trivia]
  have hle := s.ahead.length_pastTrivia_le
  have hchain := ih ((s.skip s.ahead.trivia.length).withDepth (s.depth + 1)) n htrivia rfl
    (by omega)
  constructor
  · intro p rest h
    obtain ⟨hd, core, mid, hc, rfl, rfl⟩ := reads_phrase_iff.mp h
    have hrun := hchain.reads core mid hc
    have hmid : mid <:+ s.ahead := (suffix_of_reads_chain hc).trans (List.dropWhile_suffix _)
    have hlength : s.ahead.trivia.length + mid.length ≤ s.ahead.length := by
      have hlt := hc.length_lt
      rw [← htrivia, ahead_skip, List.length_drop] at hlt
      omega
    rw [upTo_withDepth, upTo_skip hlength, withDepth_block, skip_block] at hrun
    have hahead := ahead_upTo hmid (core.terms s.block.length).1
    have hskip := skip_upTo_recovered hmid s.inCall (core.terms s.block.length).1
    rw [run_phrase_of_chain (by omega) hd hrun (by rw [hahead]; omega)]
    simp [hahead, hskip, place_upTo, withDepth_upTo, Phrase.terms]
  · intro e h
    rcases phrase_eq_error_iff.mp h with h | ⟨hd, h⟩
    · exact run_phrase_of_checkDepth h
    · rw [run_phrase_of_allows (by omega) (checkDepth_eq_ok_iff.mp hd), run_bind,
        hchain.fails e h]

theorem chainYields (ho : OperandYields g depth ts)
    (hc : ∀ left (mid : Stream), mid.length < ts.length → ClimbYields g depth minimum left mid) :
    ChainYields g depth minimum ts := by
  rintro s n rfl rfl hn
  obtain _ | n := n
  · omega
  have hoperand := ho s n rfl rfl (by omega)
  constructor
  · intro e rest h
    obtain ⟨left, mid, hl, h⟩ := reads_chain_iff.mp h
    have hlt := hl.length_lt
    rw [chain, run_bind_of_ok (hoperand.reads left mid hl)]
    exact (hc left mid hlt s n (suffix_of_reads_operand hl) rfl (by omega)).reads e rest h
  · intro e h
    rcases chain_eq_error_iff.mp h with h | ⟨left, mid, hl, h⟩
    · rw [chain, run_bind, hoperand.fails e h]
    · have hlt := hl.length_lt
      rw [chain, run_bind_of_ok (hoperand.reads left mid hl)]
      exact (hc left mid hlt s n (suffix_of_reads_operand hl) rfl (by omega)).fails e h

section Climbing

variable {op : Operator} {right : Expr} {mid : Stream} {e : ParseError}

variable (hts : ts <:+ s.ahead) (hop : g.operators.get? ts.pastGap.next.kind = some op)
  (hle : minimum ≤ op.precedence) (hn : 3 * ts.length + 2 ≤ n)

include hts in
theorem ahead_of_operator (below : List Term) (depth : Nat) : (((s.upTo ts below).skip
    (ts.gap.length + 1 + ts.pastOperator.trivia.length)).withDepth depth).ahead =
      ts.pastOperator.pastTrivia := by
  rw [ahead_withDepth, ahead_skip, ahead_upTo hts, Stream.drop_length_operator]

include hts hn

theorem length_ahead_upTo_lt (below : List Term) : (s.upTo ts below).ahead.length < n := by
  rw [ahead_upTo hts]
  omega

include hop hle

theorem run_climb_of_checkDepth (he : g.checkDepth s.depth ts.pastOperator.pastTrivia = .error e) :
    (s.upTo ts (left.terms s.block.length).1).run
      (climb g minimum (left.terms s.block.length).2 (n + 1)) = some (.error e) := by
  have hahead := ahead_of_operator hts (left.terms s.block.length).1 s.depth
  rw [ahead_withDepth] at hahead
  rw [run_climb_of_operator (length_ahead_upTo_lt hts hn _) (by rwa [ahead_upTo hts]) hle,
    ahead_upTo hts, run_bind, run_enter, hahead, skip_depth, depth_upTo, he]
  rfl

variable (hd : g.Allows (s.depth + 1))
  (hc : ChainYields g (s.depth + 1) op.rightMinimum ts.pastOperator.pastTrivia)

include hd hc

theorem run_climb_of_error
    (he : g.chain (s.depth + 1) op.rightMinimum ts.pastOperator.pastTrivia = .error e) :
    (s.upTo ts (left.terms s.block.length).1).run
      (climb g minimum (left.terms s.block.length).2 (n + 1)) = some (.error e) := by
  have hoperator := ts.pastOperator_pastTrivia_suffix.length_le
  have hrun := (hc _ n (ahead_of_operator hts (left.terms s.block.length).1 _) rfl
    (by omega)).fails e he
  rw [run_climb_of_operator (length_ahead_upTo_lt hts hn _) (by rwa [ahead_upTo hts]) hle,
    ahead_upTo hts, run_bind_of_ok (run_enter_of_allows (s := (s.upTo ts _).skip _) hd rfl),
    run_bind, hrun]

theorem run_climb_of_reads
    (hr : Reads (g.chain (s.depth + 1) op.rightMinimum ts.pastOperator.pastTrivia) right mid) :
    let e := Expr.binary left ts.gap ts.pastGap.next ts.pastOperator.trivia right
    (s.upTo ts (left.terms s.block.length).1).run
        (climb g minimum (left.terms s.block.length).2 (n + 1)) =
      (s.upTo mid (e.terms s.block.length).1).run
        (climb g minimum (e.terms s.block.length).2 n) := by
  have hoperator := ts.pastOperator_pastTrivia_suffix.length_le
  have hrun := (hc _ n (ahead_of_operator hts (left.terms s.block.length).1 _) rfl
    (by omega)).reads right mid hr
  have hmid : mid.length ≤ ts.length := hr.length_lt.le.trans hoperator
  have hlength : ts.gap.length + 1 + ts.pastOperator.trivia.length + mid.length ≤
      (s.upTo ts (left.terms s.block.length).1).ahead.length := by
    have hlt := hr.length_lt
    rw [← Stream.drop_length_operator, List.length_drop] at hlt
    rw [ahead_upTo hts]
    omega
  rw [upTo_withDepth, upTo_skip hlength, upTo_upTo hts hmid] at hrun
  intro e
  rw [run_climb_of_operator (length_ahead_upTo_lt hts hn _) (by rwa [ahead_upTo hts]) hle,
    ahead_upTo hts, run_bind_of_ok (run_enter_of_allows (s := (s.upTo ts _).skip _) hd rfl),
    run_bind_of_ok hrun, run_bind_of_ok (run_leave ..), run_bind_of_ok (run_append ..),
    run_bind_of_ok (run_append ..)]
  simp [e, Expr.terms, place_upTo, withDepth_upTo, String.append_assoc, Nat.add_assoc]

end Climbing

theorem climbYields {left : Expr} (ih : ∀ op, g.operators.get? ts.pastGap.next.kind = some op →
    minimum ≤ op.precedence →
    ChainYields g (depth + 1) op.rightMinimum ts.pastOperator.pastTrivia ∧
    ∀ right (mid : Stream), mid.length < ts.pastOperator.pastTrivia.length →
      ClimbYields g depth minimum
        (.binary left ts.gap ts.pastGap.next ts.pastOperator.trivia right) mid) :
    ClimbYields g depth minimum left ts := by
  rintro s n hts rfl hn
  obtain _ | n := n
  · omega
  have hrounds : 3 * ts.length + 2 ≤ n := by omega
  have hmid {op : Operator} {right : Expr} {mid : Stream} (hr : Reads
      (g.chain (s.depth + 1) op.rightMinimum ts.pastOperator.pastTrivia) right mid) :
      mid <:+ s.ahead ∧ 3 * mid.length + 3 ≤ n := by
    have hoperator := ts.pastOperator_pastTrivia_suffix
    have hle := hoperator.length_le
    have hlt := hr.length_lt
    exact ⟨(suffix_of_reads_chain hr).trans (hoperator.trans hts), by omega⟩
  constructor
  · intro e rest h
    rcases reads_climb_iff.mp h with ⟨hstop, rfl, rfl⟩ | ⟨op, right, mid, hop, hle, hd, hr, h⟩
    · have hahead := ahead_upTo hts (e.terms s.block.length).1
      exact run_climb_of_stops (by rw [hahead]; omega) (by rwa [hahead])
    · obtain ⟨hc, hm⟩ := ih op hop hle
      obtain ⟨hsuffix, hn'⟩ := hmid hr
      rw [run_climb_of_reads hts hop hle hrounds hd hc hr]
      exact (hm right mid hr.length_lt s n hsuffix rfl hn').reads e rest h
  · intro e h
    obtain ⟨op, hop, hle, h | ⟨hd, h | ⟨right, mid, hr, h⟩⟩⟩ := climb_eq_error_iff.mp h
    · exact run_climb_of_checkDepth hts hop hle hrounds h
    · exact run_climb_of_error hts hop hle hrounds (checkDepth_eq_ok_iff.mp hd)
        (ih op hop hle).1 h
    · obtain ⟨hc, hm⟩ := ih op hop hle
      obtain ⟨hsuffix, hn'⟩ := hmid hr
      rw [run_climb_of_reads hts hop hle hrounds (checkDepth_eq_ok_iff.mp hd) hc hr]
      exact (hm right mid hr.length_lt s n hsuffix rfl hn').fails e h

/-- The actions come to what is read, one case for each reading function. -/
theorem yields (g : Grammar) :
    (∀ depth ts, OperandYields g depth ts) ∧ (∀ depth ts, ArgumentsYield g depth ts) ∧
    (∀ depth inCall ts, PhraseYields g depth inCall ts) ∧
    (∀ depth minimum ts, ChainYields g depth minimum ts) ∧
    ∀ depth minimum left ts, ClimbYields g depth minimum left ts :=
  g.induct operandYields argumentsYield_nil argumentsYield_cons phraseYields chainYields climbYields

end Steps

section Programs

variable {g : Grammar}

theorem run_program {s : Parser} {n : Nat} (hd : s.depth = 0) (ho : s.openCalls = 0)
    (hn : 3 * s.ahead.length + 4 ≤ n) : s.run (program g n) = some ((g.program s.ahead).map
      fun ps => ((), s.upTo [] (Block.ofPhrases s.block.length ps))) := by
  induction n generalizing s with
  | zero => exact absurd hn (by omega)
  | succ n ih =>
    cases hs : s.ahead with
    | nil =>
      have hupTo := s.upTo_ahead
      rw [hs] at hupTo
      rw [run_program_of_end hs]
      simp [Grammar.program, Except.map, Block.ofPhrases, hupTo]
    | cons t ts =>
      have hcall : s.inCall = false := by simp [inCall, ho]
      have hp := (yields g).2.2.1 0 false (t :: ts) s n hs hd hcall (by rw [← hs]; omega)
      rw [run_program_of_phrase (by simp [hs])]
      cases hr : g.phrase 0 false (t :: ts) with
      | error e =>
        have hfail : g.program (t :: ts) = .error e :=
          Grammar.program_cons_eq_error_iff.mpr (.inl hr)
        rw [hfail, run_bind, hp.fails e hr]
        rfl
      | ok r =>
        obtain ⟨p, mid, hlt⟩ := r
        have hreads : Reads (g.phrase 0 false (t :: ts)) p mid := ⟨hlt, hr⟩
        have hmid : mid <:+ s.ahead := hs ▸ Grammar.suffix_of_reads_phrase hreads
        have hrun := ih (s := s.upTo mid ((p.terms s.block.length).1 ++
          [(p.terms s.block.length).2])) hd ho (by rw [ahead_upTo hmid]; rw [hs] at hn; omega)
        rw [Grammar.program_of_reads hreads, run_bind_of_ok (hp.reads p mid hreads), hrun,
          ahead_upTo hmid]
        cases g.program mid with
        | error e => rfl
        | ok ps => simp [Except.map, upTo_upTo hmid, Block.ofPhrases, Nat.add_assoc]

/-- A parser that starts at the first token ends with the block of the tokens, and then it has
passed each of their places once. -/
theorem run_program_of_tokens {tokens : List Token} {n : Nat} (hn : 3 * tokens.length + 4 ≤ n) :
    run { tokens } (program g n) = some ((Block.parse g tokens).map fun block => ((),
      { tokens, block, index := tokens.length, passed := List.range tokens.length })) := by
  have hahead : ahead { tokens } = tokens := rfl
  rw [run_program rfl rfl hn, hahead, Block.parse]
  cases g.program tokens with
  | error e => rfl
  | ok ps => simp [Except.map, upTo, skip, place, hahead, List.range_eq_range']

end Programs

end Parser

end Verbatim
