import Verbatim.Proofs.Reading.Exchange
import Verbatim.Proofs.Reading.Run

/-! # Runs in lockstep

Of two texts that an exchange of tokens makes the same, each has the run of the other, call by call
and with the same open at each.
-/

namespace Verbatim

open Token (Kind Stream)

namespace Grammar

/-- The same call over tokens that the exchange makes the same. What was read before does not
matter. -/
inductive Call.Alike (x : Exchange) : Call → Call → Prop where

  | program {s t : Stream} : t.map x.token = s.map x.token → Alike x (.program s) (.program t)

  | phrase {depth : Nat} {inCall : Bool} {s t : Stream} : t.map x.token = s.map x.token →
      Alike x (.phrase depth inCall s) (.phrase depth inCall t)

  | chain {depth : Nat} {minimum : UInt32} {s t : Stream} : t.map x.token = s.map x.token →
      Alike x (.chain depth minimum s) (.chain depth minimum t)

  | operand {depth : Nat} {s t : Stream} : t.map x.token = s.map x.token →
      Alike x (.operand depth s) (.operand depth t)

  | climb {depth : Nat} {minimum : UInt32} {left left' : Expr} {s t : Stream} :
      t.map x.token = s.map x.token →
      Alike x (.climb depth minimum left s) (.climb depth minimum left' t)

  | arguments {depth : Nat} {s t : Stream} : t.map x.token = s.map x.token →
      Alike x (.arguments depth s) (.arguments depth t)

variable {g : Grammar} {x : Exchange} {depth : Nat} {minimum : UInt32} {inCall : Bool}
  {s t rest : Stream} {c c' d : Call} {stack opened : List Frame}

section Outcomes

/-- A function that looks at kinds only reads as far in the one text as in the other. -/
theorem exists_reads_of_follows {α : Type} {f : α → α} {a : α} {bound : Stream → Nat}
    {r : (u : Stream) → Except ParseError (Parsed α (bound u))}
    (h : ∀ u, Follows x f (r u) (r (u.map x.token))) (hst : t.map x.token = s.map x.token)
    (hr : Reads (r s) a rest) :
    ∃ a' rest', Reads (r t) a' rest' ∧ rest'.map x.token = rest.map x.token := by
  have hmapped := (h s).reads a rest hr
  rw [← hst] at hmapped
  cases ht : r t with
  | error e =>
    rw [(h t).fails e ht] at hmapped
    exact (not_reads_error hmapped).elim
  | ok p =>
    obtain ⟨a', rest', hlt⟩ := p
    obtain ⟨_, heq⟩ := (h t).reads a' rest' ⟨hlt, ht⟩
    rw [heq, reads_ok_iff] at hmapped
    exact ⟨a', rest', ⟨hlt, rfl⟩, hmapped.2.symm⟩

variable (hst : t.map x.token = s.map x.token)

include hst

theorem exists_reads_phrase {p : Phrase} (h : Reads (g.phrase depth inCall s) p rest) :
    ∃ q rest', Reads (g.phrase depth inCall t) q rest' ∧ rest'.map x.token = rest.map x.token :=
  exists_reads_of_follows
    (fun u => (follows (alikeOn_refl g) x).2.2.1 depth inCall u (meets_true u)) hst h

theorem exists_reads_chain {e : Expr} (h : Reads (g.chain depth minimum s) e rest) :
    ∃ e' rest', Reads (g.chain depth minimum t) e' rest' ∧
      rest'.map x.token = rest.map x.token :=
  exists_reads_of_follows (fun u => (follows (alikeOn_refl g) x).2.2.2.1 depth minimum u
    (meets_true u) minimum Operators.sameBelow_refl) hst h

theorem exists_reads_operand {e : Expr} (h : Reads (g.operand depth s) e rest) :
    ∃ e' rest', Reads (g.operand depth t) e' rest' ∧ rest'.map x.token = rest.map x.token :=
  exists_reads_of_follows
    (fun u => (follows (alikeOn_refl g) x).1 depth u (meets_true u)) hst h

end Outcomes

section Streams

theorem kind_eq_of_token_eq {u v : Token} (h : x.token v = x.token u) : v.kind = u.kind := by
  rw [← x.kind_token v, h, x.kind_token]

theorem isTrivia_eq_of_token_eq {u v : Token} (h : x.token v = x.token u) :
    v.isTrivia = u.isTrivia :=
  congrArg Kind.isTrivia (kind_eq_of_token_eq h)

variable (hst : t.map x.token = s.map x.token)

include hst

theorem kind_next_pastGap_eq : t.pastGap.next.kind = s.pastGap.next.kind := by
  apply kind_eq_of_token_eq (x := x)
  rw [← x.next_map, ← x.pastGap_map, hst, x.pastGap_map, x.next_map]

theorem pastTrivia_map_eq : t.pastTrivia.map x.token = s.pastTrivia.map x.token := by
  rw [← x.pastTrivia_map, hst, x.pastTrivia_map]

theorem pastOperator_map_eq : t.pastOperator.map x.token = s.pastOperator.map x.token := by
  rw [← x.pastOperator_map, hst, x.pastOperator_map]

end Streams

/-- Of two calls that are alike, each makes the calls of the other. -/
theorem Makes.exists_alike (h : g.Makes c opened c') (hd : c.Alike x d) :
    ∃ d', g.Makes d opened d' ∧ c'.Alike x d' := by
  cases h with
  | programPhrase =>
    cases hd with | program hst =>
    obtain ⟨v, t, rfl, -, -⟩ := List.map_eq_cons_iff.mp hst
    exact ⟨_, .programPhrase, .phrase hst⟩
  | programProgram hp =>
    cases hd with | program hst =>
    obtain ⟨q, rest', hq, hrest⟩ := exists_reads_phrase hst hp
    obtain ⟨v, t, rfl, -, -⟩ := List.map_eq_cons_iff.mp hst
    exact ⟨_, .programProgram hq, .program hrest⟩
  | phraseChain hc =>
    cases hd with | phrase hst =>
    have hc' := checkDepth_of_allows (checkDepth_eq_ok_iff.mp hc)
    exact ⟨_, .phraseChain (hc' _), .chain (pastTrivia_map_eq hst)⟩
  | chainOperand =>
    cases hd with | chain hst =>
    exact ⟨_, .chainOperand, .operand hst⟩
  | chainClimb hl =>
    cases hd with | chain hst =>
    obtain ⟨left, rest', hl', hrest⟩ := exists_reads_operand hst hl
    exact ⟨_, .chainClimb hl', .climb hrest⟩
  | operandArguments hc ho =>
    cases hd with | operand hst =>
    obtain ⟨callee', t, rfl, hcallee, hst⟩ := List.map_eq_cons_iff.mp hst
    obtain ⟨opening', t, rfl, hopening, hst⟩ := List.map_eq_cons_iff.mp hst
    have hc' := (kind_eq_of_token_eq hcallee).trans hc
    have ho' := (kind_eq_of_token_eq hopening).trans ho
    exact ⟨_, .operandArguments hc' ho', .arguments hst⟩
  | climbChain hop hle hc =>
    cases hd with | climb hst =>
    have hc' := checkDepth_of_allows (checkDepth_eq_ok_iff.mp hc)
    have hst' := pastTrivia_map_eq (pastOperator_map_eq hst)
    rw [← kind_next_pastGap_eq hst] at hop
    exact ⟨_, .climbChain hop hle (hc' _), .chain hst'⟩
  | climbClimb hop hle hc hr =>
    cases hd with | climb hst =>
    have hc' := checkDepth_of_allows (checkDepth_eq_ok_iff.mp hc)
    have hst' := pastTrivia_map_eq (pastOperator_map_eq hst)
    obtain ⟨right, rest', hr', hrest⟩ := exists_reads_chain hst' hr
    rw [← kind_next_pastGap_eq hst] at hop
    exact ⟨_, .climbClimb hop hle (hc' _) hr', .climb hrest⟩
  | argumentsTrivia ht =>
    cases hd with | arguments hst =>
    obtain ⟨v, t, rfl, hv, hst⟩ := List.map_eq_cons_iff.mp hst
    exact ⟨_, .argumentsTrivia (isTrivia_eq_of_token_eq hv ▸ ht), .arguments hst⟩
  | argumentsPhrase hr ht =>
    cases hd with | arguments hst =>
    obtain ⟨v, t, rfl, hv, -⟩ := List.map_eq_cons_iff.mp hst
    have hr' := kind_eq_of_token_eq hv ▸ hr
    exact ⟨_, .argumentsPhrase hr' (isTrivia_eq_of_token_eq hv ▸ ht), .phrase hst⟩
  | argumentsArguments hr ht hp =>
    cases hd with | arguments hst =>
    obtain ⟨q, rest', hq, hrest⟩ := exists_reads_phrase hst hp
    obtain ⟨v, t, rfl, hv, -⟩ := List.map_eq_cons_iff.mp hst
    have hr' := kind_eq_of_token_eq hv ▸ hr
    exact ⟨_, .argumentsArguments hr' (isTrivia_eq_of_token_eq hv ▸ ht) hq, .arguments hrest⟩

theorem Runs.exists_alike (h : g.Runs c stack c') (hd : c.Alike x d) :
    ∃ d', g.Runs d stack d' ∧ c'.Alike x d' := by
  induction h with
  | start => exact ⟨d, .start, hd⟩
  | step _ hm ih =>
    obtain ⟨d₁, hr, hd₁⟩ := ih
    obtain ⟨d₂, hm, hd₂⟩ := hm.exists_alike hd₁
    exact ⟨d₂, hr.step hm, hd₂⟩

theorem Overflows.of_map_eq (h : g.Overflows s) (hst : t.map x.token = s.map x.token) :
    g.Overflows t := by
  obtain ⟨stack, c, op, hr, hop, ho⟩ := h
  obtain ⟨d, hr, -⟩ := hr.exists_alike (.program hst)
  exact ⟨stack, d, op, hr, hop, ho⟩

end Grammar

end Verbatim
