import Verbatim.Proofs.Precedence.Overflow
import Verbatim.Proofs.Reading.Unlimited

/-! # Runs

A run of the reading functions is made of the calls that they make of each other, each with the
expressions, calls and right operands of the text that are open at that time. A call fails exactly
if its run comes to a call that raises the error itself.
-/

namespace Verbatim.Grammar

open Token (Kind Stream)

/-- A call of a reading function. -/
inductive Call where
  | program (s : Stream)
  | phrase (depth : Nat) (inCall : Bool) (s : Stream)
  | chain (depth : Nat) (minimum : UInt32) (s : Stream)
  | operand (depth : Nat) (s : Stream)
  | climb (depth : Nat) (minimum : UInt32) (left : Expr) (s : Stream)
  | arguments (depth : Nat) (s : Stream)

/-- What is open while a part of it is read: an expression that stands for itself, a call whose
parenthesis is not closed yet, or the right operand of an operator. -/
inductive Frame where
  | expression
  | call
  | right (op : Operator)
  deriving DecidableEq, Repr

def Call.stream : Call → Stream
  | .program s | .phrase _ _ s | .chain _ _ s | .operand _ s | .climb _ _ _ s | .arguments _ s => s

def Call.size : Call → Nat
  | .operand _ s => 4 * s.length
  | .chain _ _ s => 4 * s.length + 1
  | .climb _ _ _ s | .phrase _ _ s => 4 * s.length + 2
  | .arguments _ s | .program s => 4 * s.length + 3

def Fails (g : Grammar) (e : ParseError) : Call → Prop
  | .program s => g.program s = .error e
  | .phrase depth inCall s => g.phrase depth inCall s = .error e
  | .chain depth minimum s => g.chain depth minimum s = .error e
  | .operand depth s => g.operand depth s = .error e
  | .climb depth minimum left s => g.climb depth minimum left s = .error e
  | .arguments depth s => g.arguments depth s = .error e

/-- The errors that a call raises itself. -/
inductive Raises (g : Grammar) (e : ParseError) : Call → Prop where

  | expression {depth : Nat} {inCall : Bool} {s : Stream} :
      g.checkDepth depth s = .error e → Raises g e (.phrase depth inCall s)

  | right {depth : Nat} {minimum : UInt32} {left : Expr} {s : Stream} {op : Operator} :
      g.operators.get? s.pastGap.next.kind = some op → minimum ≤ op.precedence →
      g.checkDepth depth s.pastOperator.pastTrivia = .error e →
      Raises g e (.climb depth minimum left s)

  | noProduction {depth : Nat} {s : Stream} :
      s.next.kind ≠ .identifier → e = .noProductionAt s.next → Raises g e (.operand depth s)

  | unclosed {depth : Nat} {callee opening : Token} {s rest : Stream} {args : Args} :
      callee.kind = .identifier → opening.kind = .leftParen →
      Reads (g.arguments depth s) args rest → rest.next.kind ≠ .rightParen →
      e = .expectedAt .rightParen rest.next → Raises g e (.operand depth (callee :: opening :: s))

/-- The calls that a call makes itself, one after the other, with what it opens for each. -/
inductive Makes (g : Grammar) : Call → List Frame → Call → Prop where

  | programPhrase {t : Token} {s : Stream} :
      Makes g (.program (t :: s)) [] (.phrase 0 false (t :: s))

  | programProgram {t : Token} {s rest : Stream} {p : Phrase} :
      Reads (g.phrase 0 false (t :: s)) p rest → Makes g (.program (t :: s)) [] (.program rest)

  | phraseChain {depth : Nat} {inCall : Bool} {s : Stream} : g.checkDepth depth s = .ok () →
      Makes g (.phrase depth inCall s) [.expression] (.chain (depth + 1) 0 s.pastTrivia)

  | chainOperand {depth : Nat} {minimum : UInt32} {s : Stream} :
      Makes g (.chain depth minimum s) [] (.operand depth s)

  | chainClimb {depth : Nat} {minimum : UInt32} {left : Expr} {s rest : Stream} :
      Reads (g.operand depth s) left rest →
      Makes g (.chain depth minimum s) [] (.climb depth minimum left rest)

  | operandArguments {depth : Nat} {callee opening : Token} {s : Stream} :
      callee.kind = .identifier → opening.kind = .leftParen →
      Makes g (.operand depth (callee :: opening :: s)) [.call] (.arguments depth s)

  | climbChain {depth : Nat} {minimum : UInt32} {left : Expr} {s : Stream} {op : Operator} :
      g.operators.get? s.pastGap.next.kind = some op → minimum ≤ op.precedence →
      g.checkDepth depth s.pastOperator.pastTrivia = .ok () →
      Makes g (.climb depth minimum left s) [.right op]
        (.chain (depth + 1) op.rightMinimum s.pastOperator.pastTrivia)

  | climbClimb {depth : Nat} {minimum : UInt32} {left right : Expr} {s rest : Stream}
      {op : Operator} :
      g.operators.get? s.pastGap.next.kind = some op → minimum ≤ op.precedence →
      g.checkDepth depth s.pastOperator.pastTrivia = .ok () →
      Reads (g.chain (depth + 1) op.rightMinimum s.pastOperator.pastTrivia) right rest →
      Makes g (.climb depth minimum left s) [] (.climb depth minimum
        (.binary left s.gap s.pastGap.next s.pastOperator.trivia right) rest)

  | argumentsTrivia {depth : Nat} {t : Token} {s : Stream} :
      t.isTrivia → Makes g (.arguments depth (t :: s)) [] (.arguments depth s)

  | argumentsPhrase {depth : Nat} {t : Token} {s : Stream} :
      t.kind ≠ .rightParen → ¬ t.isTrivia →
      Makes g (.arguments depth (t :: s)) [] (.phrase depth true (t :: s))

  | argumentsArguments {depth : Nat} {t : Token} {s rest : Stream} {p : Phrase} :
      t.kind ≠ .rightParen → ¬ t.isTrivia → Reads (g.phrase depth true (t :: s)) p rest →
      Makes g (.arguments depth (t :: s)) [] (.arguments depth rest)

/-- The calls in the run of a call, with what was opened for them and is open still. -/
inductive Runs (g : Grammar) (start : Call) : List Frame → Call → Prop where

  | start : Runs g start [] start

  | step {stack opened : List Frame} {c c' : Call} :
      Runs g start stack c → Makes g c opened c' → Runs g start (opened ++ stack) c'

/-- The run comes to the right operand of an operator that overflows. Words wrap around there; with
arithmetic that is checked, reading would end there without an outcome. -/
def Overflows (g : Grammar) (tokens : Stream) : Prop :=
  ∃ stack c op, g.Runs (.program tokens) stack c ∧ .right op ∈ stack ∧ op.Overflows

variable {g : Grammar} {e : ParseError} {c c' start : Call} {opened stack : List Frame}

theorem Makes.size_lt (h : g.Makes c opened c') : c'.size < c.size := by
  cases h with
  | programPhrase => exact Nat.lt_succ_self _
  | programProgram hp =>
    have := hp.length_lt
    simp only [Call.size]
    omega
  | @phraseChain _ _ s =>
    have := s.length_pastTrivia_le
    simp only [Call.size]
    omega
  | chainOperand => exact Nat.lt_succ_self _
  | chainClimb hl =>
    have := hl.length_lt
    simp only [Call.size]
    omega
  | operandArguments =>
    simp only [Call.size, List.length_cons]
    omega
  | @climbChain _ _ _ s =>
    have := s.pastOperator.length_pastTrivia_le
    have := s.length_pastOperator_le
    simp only [Call.size]
    omega
  | @climbClimb _ _ _ _ s _ _ _ _ _ hr =>
    have := s.pastOperator.length_pastTrivia_le
    have := s.length_pastOperator_le
    have := hr.length_lt
    simp only [Call.size]
    omega
  | argumentsTrivia =>
    simp only [Call.size, List.length_cons]
    omega
  | argumentsPhrase => exact Nat.lt_succ_self _
  | argumentsArguments _ _ hp =>
    have := hp.length_lt
    simp only [Call.size]
    omega

theorem Makes.stream_suffix (h : g.Makes c opened c') : c'.stream <:+ c.stream := by
  cases h with
  | programPhrase => exact List.suffix_refl _
  | programProgram hp => exact suffix_of_reads_phrase hp
  | phraseChain => exact List.dropWhile_suffix _
  | chainOperand => exact List.suffix_refl _
  | chainClimb hl => exact suffix_of_reads_operand hl
  | operandArguments => exact List.suffix_append [_, _] _
  | climbChain => exact Stream.pastOperator_pastTrivia_suffix _
  | climbClimb _ _ _ hr =>
    exact (suffix_of_reads_chain hr).trans (Stream.pastOperator_pastTrivia_suffix _)
  | argumentsTrivia => exact List.suffix_cons _ _
  | argumentsPhrase => exact List.suffix_refl _
  | argumentsArguments _ _ hp => exact suffix_of_reads_phrase hp

theorem Raises.fails (h : g.Raises e c) : g.Fails e c := by
  cases h with
  | expression hd => exact phrase_eq_error_iff.mpr (.inl hd)
  | right hop hm hd => exact climb_eq_error_iff.mpr ⟨_, hop, hm, .inl hd⟩
  | noProduction hi he => exact operand_eq_error_iff.mpr (.inl ⟨hi, he⟩)
  | unclosed hc ho ha hr he =>
    exact operand_eq_error_iff.mpr (.inr ⟨_, _, _, rfl, hc, ho, .inr ⟨_, _, ha, hr, he⟩⟩)

theorem Makes.fails (hm : g.Makes c opened c') (h : g.Fails e c') : g.Fails e c := by
  cases hm with
  | programPhrase => exact program_cons_eq_error_iff.mpr (.inl h)
  | programProgram hp => exact program_cons_eq_error_iff.mpr (.inr ⟨_, _, hp, h⟩)
  | phraseChain hd => exact phrase_eq_error_iff.mpr (.inr ⟨hd, h⟩)
  | chainOperand => exact chain_eq_error_iff.mpr (.inl h)
  | chainClimb hl => exact chain_eq_error_iff.mpr (.inr ⟨_, _, hl, h⟩)
  | operandArguments hc ho =>
    exact operand_eq_error_iff.mpr (.inr ⟨_, _, _, rfl, hc, ho, .inl h⟩)
  | climbChain hop hm hd => exact climb_eq_error_iff.mpr ⟨_, hop, hm, .inr ⟨hd, .inl h⟩⟩
  | climbClimb hop hm hd hr =>
    exact climb_eq_error_iff.mpr ⟨_, hop, hm, .inr ⟨hd, .inr ⟨_, _, hr, h⟩⟩⟩
  | argumentsTrivia ht => exact arguments_cons_eq_error_iff.mpr (.inl ⟨ht, h⟩)
  | argumentsPhrase hr ht => exact arguments_cons_eq_error_iff.mpr (.inr ⟨hr, ht, .inl h⟩)
  | argumentsArguments hr ht hp =>
    exact arguments_cons_eq_error_iff.mpr (.inr ⟨hr, ht, .inr ⟨_, _, hp, h⟩⟩)

/-- An error comes from the call itself or from a call that it makes. -/
theorem raises_or_makes (h : g.Fails e c) :
    g.Raises e c ∨ ∃ opened c', g.Makes c opened c' ∧ g.Fails e c' := by
  cases c with
  | program s =>
    cases s with
    | nil => exact (program_nil_ne_error h).elim
    | cons t s =>
      rcases program_cons_eq_error_iff.mp h with h | ⟨p, mid, hp, h⟩
      · exact .inr ⟨_, _, .programPhrase, h⟩
      · exact .inr ⟨_, _, .programProgram hp, h⟩
  | phrase depth inCall s =>
    rcases phrase_eq_error_iff.mp h with h | ⟨hd, h⟩
    · exact .inl (.expression h)
    · exact .inr ⟨_, _, .phraseChain hd, h⟩
  | chain depth minimum s =>
    rcases chain_eq_error_iff.mp h with h | ⟨left, mid, hl, h⟩
    · exact .inr ⟨_, _, .chainOperand, h⟩
    · exact .inr ⟨_, _, .chainClimb hl, h⟩
  | operand depth s =>
    rcases operand_eq_error_iff.mp h with
      ⟨hi, he⟩ | ⟨callee, opening, mid, rfl, hc, ho, h | ⟨args, rest, ha, hr, he⟩⟩
    · exact .inl (.noProduction hi he)
    · exact .inr ⟨_, _, .operandArguments hc ho, h⟩
    · exact .inl (.unclosed hc ho ha hr he)
  | climb depth minimum left s =>
    obtain ⟨op, hop, hm, h | ⟨hd, h | ⟨right, mid, hr, h⟩⟩⟩ := climb_eq_error_iff.mp h
    · exact .inl (.right hop hm h)
    · exact .inr ⟨_, _, .climbChain hop hm hd, h⟩
    · exact .inr ⟨_, _, .climbClimb hop hm hd hr, h⟩
  | arguments depth s =>
    cases s with
    | nil => exact (arguments_nil_ne_error h).elim
    | cons t s =>
      rcases arguments_cons_eq_error_iff.mp h with ⟨ht, h⟩ | ⟨hr, ht, h | ⟨p, mid, hp, h⟩⟩
      · exact .inr ⟨_, _, .argumentsTrivia ht, h⟩
      · exact .inr ⟨_, _, .argumentsPhrase hr ht, h⟩
      · exact .inr ⟨_, _, .argumentsArguments hr ht hp, h⟩

theorem Runs.cons (hm : g.Makes start opened c) (h : g.Runs c stack c') :
    g.Runs start (stack ++ opened) c' := by
  induction h with
  | start => simpa using Runs.step .start hm
  | step _ hm ih =>
    rw [List.append_assoc]
    exact ih.step hm

theorem Runs.fails (h : g.Runs start stack c) (hc : g.Fails e c) : g.Fails e start := by
  induction h with
  | start => exact hc
  | step _ hm ih => exact ih (hm.fails hc)

theorem Runs.stream_suffix (h : g.Runs start stack c) : c.stream <:+ start.stream := by
  induction h with
  | start => exact List.suffix_refl _
  | step _ hm ih => exact hm.stream_suffix.trans ih

theorem overflows_of_operator {s : Stream} {op : Operator} (hi : s.next.kind = .identifier)
    (hn : s.advance.next.kind ≠ .leftParen)
    (hop : g.operators.get? s.advance.pastGap.next.kind = some op) (ho : op.Overflows)
    (hd : g.Allows 2) : g.Overflows s := by
  cases s with
  | nil => cases hi
  | cons ident s =>
    have ht : Stream.pastTrivia (ident :: s) = ident :: s := by
      have hkind : ident.kind = .identifier := hi
      simp [Stream.pastTrivia, Token.isTrivia, hkind, Kind.isTrivia]
    have hread : Reads (g.operand 1 (ident :: s)) (.name ident) s :=
      reads_operand_iff.mpr (.inl ⟨ident, rfl, hi, hn, rfl⟩)
    have hphrase : g.Runs (.program (ident :: s)) [] (.phrase 0 false (ident :: s)) :=
      .step .start .programPhrase
    have hchain := hphrase.step (.phraseChain (checkDepth_of_allows (hd.mono (Nat.le_succ 1)) _))
    rw [ht] at hchain
    have hclimb := hchain.step (.chainClimb hread)
    have hright := hclimb.step (.climbChain hop UInt32.zero_le (checkDepth_of_allows hd _))
    exact ⟨_, _, op, hright, List.mem_cons_self, ho⟩

theorem exists_runs : ∀ {start : Call}, g.Fails e start →
    ∃ stack c, g.Runs start stack c ∧ g.Raises e c
  | start, h => by
    rcases raises_or_makes h with h | ⟨opened, c', hm, h⟩
    · exact ⟨[], start, .start, h⟩
    · have hlt := hm.size_lt
      obtain ⟨stack, c, hr, hc⟩ := exists_runs h
      exact ⟨_, c, hr.cons hm, hc⟩
termination_by start => start.size

/-- A call fails exactly if its run comes to where the error is raised. -/
theorem fails_iff_runs : g.Fails e start ↔ ∃ stack c, g.Runs start stack c ∧ g.Raises e c := by
  constructor
  · exact exists_runs
  · rintro ⟨stack, c, hr, hc⟩
    exact hr.fails hc.fails

end Verbatim.Grammar
