import Verbatim.Expr.OfTokens
import Mathlib.Tactic.Common

/-! # One step of reading

What each reading function returns, in terms of what the functions that it calls return. Later
modules use these equivalences and do not open the functions.
-/

namespace Verbatim

open Token (Kind Stream)

theorem bind_eq_ok_iff {ε α β : Type} {x : Except ε α} {f : α → Except ε β} {b : β} :
    x >>= f = .ok b ↔ ∃ a, x = .ok a ∧ f a = .ok b := by
  cases x <;> simp [bind, Except.bind]

theorem exists_of_isOk {ε α : Type} : ∀ {x : Except ε α}, x.isOk → ∃ a, x = .ok a
  | .ok a, _ => ⟨a, rfl⟩

theorem exists_of_not_isOk {ε α : Type} : ∀ {x : Except ε α}, ¬ x.isOk → ∃ e, x = .error e
  | .ok _, h => (h rfl).elim
  | .error e, _ => ⟨e, rfl⟩

theorem exists_of_any {ε α : Type} {p : α → Bool} : ∀ {x : Except ε α}, x.toOption.any p →
    ∃ a, x = .ok a ∧ p a
  | .ok a, h => ⟨a, rfl, h⟩

/-- The outcome `r` is the value `a`, with `rest` still to be read. -/
def Reads {α : Type} {n : Nat} (r : Except ParseError (Parsed α n)) (a : α) (rest : Stream) :
    Prop :=
  ∃ h, r = .ok ⟨a, rest, h⟩

section Outcomes

variable {α β : Type} {m n : Nat}

theorem Reads.length_lt {r : Except ParseError (Parsed α n)} {a : α} {rest : Stream}
    (h : Reads r a rest) : rest.length < n :=
  h.1

@[simp] theorem reads_ok_iff {a b : α} {s rest : Stream} {h : s.length < n} :
    Reads (.ok ⟨a, s, h⟩) b rest ↔ b = a ∧ rest = s := by
  constructor
  · rintro ⟨_, he⟩
    injection he with he
    injection he with ha hs
    exact ⟨ha.symm, hs.symm⟩
  · rintro ⟨rfl, rfl⟩
    exact ⟨h, rfl⟩

@[simp] theorem not_reads_error {e : ParseError} {a : α} {rest : Stream} :
    ¬ Reads (.error e : Except ParseError (Parsed α n)) a rest := by
  rintro ⟨_, he⟩
  cases he

theorem reads_bind_iff {x : Except ParseError (Parsed α m)}
    {f : Parsed α m → Except ParseError (Parsed β n)} {b : β} {rest : Stream} :
    Reads (x >>= f) b rest ↔
      ∃ a mid, ∃ h : mid.length < m, Reads x a mid ∧ Reads (f ⟨a, mid, h⟩) b rest := by
  constructor
  · rintro ⟨h, he⟩
    obtain ⟨⟨a, mid, hm⟩, hx, hf⟩ := bind_eq_ok_iff.mp he
    exact ⟨a, mid, hm, ⟨hm, hx⟩, h, hf⟩
  · rintro ⟨a, mid, hm, ⟨_, hx⟩, h, hf⟩
    exact ⟨h, bind_eq_ok_iff.mpr ⟨_, hx, hf⟩⟩

theorem reads_check_iff {x : Except ParseError Unit}
    {f : Unit → Except ParseError (Parsed β n)} {b : β} {rest : Stream} :
    Reads (x >>= f) b rest ↔ x = .ok () ∧ Reads (f ()) b rest := by
  constructor
  · rintro ⟨h, he⟩
    obtain ⟨_, hx, hf⟩ := bind_eq_ok_iff.mp he
    exact ⟨hx, h, hf⟩
  · rintro ⟨hx, h, hf⟩
    exact ⟨h, bind_eq_ok_iff.mpr ⟨_, hx, hf⟩⟩

end Outcomes

/-- No operator of precedence `minimum` or above is next after whitespace. -/
def Operators.StopsAt (ops : Operators) (minimum : UInt32) (s : Stream) : Prop :=
  ∀ op, ops.get? s.pastGap.next.kind = some op → op.precedence < minimum

theorem Operators.StopsAt.mono {ops : Operators} {m n : UInt32} {s : Stream}
    (h : ops.StopsAt m s) (hmn : m ≤ n) : ops.StopsAt n s := by
  intro op hop
  exact UInt32.lt_of_lt_of_le (h op hop) hmn

namespace Grammar

variable {g : Grammar} {depth : Nat} {minimum : UInt32} {inCall : Bool} {s rest : Stream}
  {e left : Expr} {args : Args} {p : Phrase}

/-- Nesting down to level `n` is within the limit. -/
def Allows (g : Grammar) (n : Nat) : Prop :=
  ∀ limit, g.depthLimit = some limit → n ≤ limit

theorem Allows.mono {m n : Nat} (h : g.Allows n) (hmn : m ≤ n) : g.Allows m := by
  intro limit hl
  exact Nat.le_trans hmn (h limit hl)

theorem allows_max_iff {m n : Nat} : g.Allows (max m n) ↔ g.Allows m ∧ g.Allows n := by
  simp only [Allows, Nat.max_le]
  constructor
  · intro h
    exact ⟨fun l hl => (h l hl).1, fun l hl => (h l hl).2⟩
  · rintro ⟨hm, hn⟩ l hl
    exact ⟨hm l hl, hn l hl⟩

theorem allows_maxDepth_iff {ops : Operators} {n : Nat} :
    Allows { operators := ops } n ↔ n ≤ maxDepth := by
  simp [Allows]

theorem checkDepth_eq_ok_iff : g.checkDepth depth s = .ok () ↔ g.Allows (depth + 1) := by
  unfold checkDepth Allows
  cases g.depthLimit with
  | none => simp
  | some limit =>
    have hl : (∀ l, some limit = some l → depth + 1 ≤ l) ↔ depth < limit := by
      constructor
      · intro h
        exact h limit rfl
      · rintro h _ ⟨⟩
        exact h
    rw [hl]
    by_cases h : depth < limit <;> simp [h]

theorem checkDepth_of_allows (h : g.Allows (depth + 1)) (s : Stream) :
    g.checkDepth depth s = .ok () :=
  checkDepth_eq_ok_iff.mpr h

theorem reads_require_iff {kind : Kind} {t : Token} :
    Reads (s.require kind) t rest ↔ s = t :: rest ∧ t.kind = kind := by
  cases s with
  | nil => simp [Token.Stream.require]
  | cons u s =>
    by_cases h : u.kind = kind
    · simp only [Token.Stream.require, if_pos h, reads_ok_iff, List.cons.injEq]
      constructor
      · rintro ⟨rfl, rfl⟩; exact ⟨⟨rfl, rfl⟩, h⟩
      · rintro ⟨⟨rfl, rfl⟩, _⟩; exact ⟨rfl, rfl⟩
    · simp only [Token.Stream.require, if_neg h, not_reads_error, List.cons.injEq, false_iff]
      rintro ⟨⟨rfl, rfl⟩, hk⟩
      exact h hk

theorem reads_operand_iff :
    Reads (g.operand depth s) e rest ↔
      (∃ ident, s = ident :: rest ∧ ident.kind = .identifier ∧ rest.next.kind ≠ .leftParen ∧
        e = .name ident) ∨
      ∃ callee opening args closing mid, s = callee :: opening :: mid ∧
        callee.kind = .identifier ∧ opening.kind = .leftParen ∧ closing.kind = .rightParen ∧
        Reads (g.arguments depth mid) args (closing :: rest) ∧
        e = .call callee opening args closing := by
  rw [operand.eq_def]
  constructor
  · intro h
    cases s with
    | nil => exact (not_reads_error h).elim
    | cons ident s =>
      by_cases hi : ident.kind = .identifier
      · simp only [if_pos hi] at h
        cases s with
        | nil =>
          obtain ⟨rfl, rfl⟩ := reads_ok_iff.mp h
          exact .inl ⟨ident, rfl, hi, by decide, rfl⟩
        | cons opening s =>
          by_cases ho : opening.kind = .leftParen
          · simp only [if_pos ho, reads_bind_iff, reads_ok_iff, reads_require_iff] at h
            obtain ⟨args, _, _, ha, closing, _, _, ⟨rfl, hc⟩, rfl, rfl⟩ := h
            exact .inr ⟨ident, opening, args, closing, s, rfl, hi, ho, hc, ha, rfl⟩
          · simp only [if_neg ho] at h
            obtain ⟨rfl, rfl⟩ := reads_ok_iff.mp h
            exact .inl ⟨ident, rfl, hi, ho, rfl⟩
      · simp only [if_neg hi] at h
        exact (not_reads_error h).elim
  · rintro (⟨ident, rfl, hi, hn, rfl⟩ |
      ⟨callee, opening, args, closing, mid, rfl, hi, ho, hc, ha, rfl⟩)
    · cases rest with
      | nil => simp only [if_pos hi, reads_ok_iff, true_and]
      | cons opening rest =>
        have ho : ¬ opening.kind = .leftParen := hn
        simp only [if_pos hi, if_neg ho, reads_ok_iff, true_and]
    · simp only [if_pos hi, if_pos ho, reads_bind_iff, reads_ok_iff, reads_require_iff]
      exact ⟨args, closing :: rest, ha.length_lt, ha, closing, rest, by simp, ⟨rfl, hc⟩, rfl, rfl⟩

theorem reads_chain_iff :
    Reads (g.chain depth minimum s) e rest ↔
      ∃ left mid, Reads (g.operand depth s) left mid ∧
        Reads (g.climb depth minimum left mid) e rest := by
  rw [chain]
  simp only [reads_bind_iff, reads_ok_iff]
  constructor
  · rintro ⟨left, mid, _, hl, e, rest, _, hc, rfl, rfl⟩
    exact ⟨left, mid, hl, hc⟩
  · rintro ⟨left, mid, hl, hc⟩
    exact ⟨left, mid, hl.length_lt, hl, e, rest, hc.length_lt, hc, rfl, rfl⟩

theorem reads_climb_iff :
    Reads (g.climb depth minimum left s) e rest ↔
      (g.operators.StopsAt minimum s ∧ e = left ∧ rest = s) ∨
      ∃ op right mid, g.operators.get? s.pastGap.next.kind = some op ∧
        minimum ≤ op.precedence ∧ g.Allows (depth + 1) ∧
        Reads (g.chain (depth + 1) op.rightMinimum s.pastOperator.pastTrivia) right mid ∧
        Reads (g.climb depth minimum
          (.binary left s.gap s.pastGap.next s.pastOperator.trivia right) mid) e rest := by
  rw [climb]
  cases hop : g.operators.get? s.pastGap.next.kind with
  | none => simp [Operators.StopsAt, hop]
  | some op =>
    by_cases hm : op.precedence < minimum
    · simp only [Operators.StopsAt, hop, hm, if_true, reads_ok_iff, Option.some.injEq,
        forall_eq', true_and]
      constructor
      · exact .inl
      · rintro (h | ⟨op', _, _, rfl, hle, _⟩)
        · exact h
        · exact (UInt32.not_lt.mpr hle hm).elim
    · have hle : minimum ≤ op.precedence := UInt32.not_lt.mp hm
      simp only [Operators.StopsAt, hop, hm, if_false, reads_check_iff, reads_bind_iff,
        reads_ok_iff, checkDepth_eq_ok_iff, Option.some.injEq, forall_eq', false_and, false_or]
      constructor
      · rintro ⟨hd, right, mid, _, hr, e, rest, _, hc, rfl, rfl⟩
        exact ⟨op, right, mid, rfl, hle, hd, hr, hc⟩
      · rintro ⟨_, right, mid, rfl, _, hd, hr, hc⟩
        exact ⟨hd, right, mid, hr.length_lt, hr, e, rest, hc.length_lt, hc, rfl, rfl⟩

theorem reads_phrase_iff :
    Reads (g.phrase depth inCall s) p rest ↔
      g.Allows (depth + 1) ∧ ∃ core mid, Reads (g.chain (depth + 1) 0 s.pastTrivia) core mid ∧
        p = .mk s.trivia core mid.blank (mid.pastBlank.junk inCall)
          (Stream.trivia (mid.pastBlank.pastJunk inCall)) ∧
        rest = Stream.pastTrivia (mid.pastBlank.pastJunk inCall) := by
  rw [phrase]
  simp only [reads_check_iff, reads_bind_iff, reads_ok_iff, checkDepth_eq_ok_iff]
  constructor
  · rintro ⟨hd, core, mid, _, hc, rfl, rfl⟩
    exact ⟨hd, core, mid, hc, rfl, rfl⟩
  · rintro ⟨hd, core, mid, hc, rfl, rfl⟩
    exact ⟨hd, core, mid, hc.length_lt, hc, rfl, rfl⟩

theorem reads_arguments_nil_iff :
    Reads (g.arguments depth []) args rest ↔ args = .nil ∧ rest = [] := by
  rw [arguments, reads_ok_iff]

theorem reads_arguments_cons_iff {t : Token} :
    Reads (g.arguments depth (t :: s)) args rest ↔
      (t.kind = .rightParen ∧ args = .nil ∧ rest = t :: s) ∨
      (t.isTrivia ∧ ∃ more, Reads (g.arguments depth s) more rest ∧ args = .trivia t more) ∨
      (t.kind ≠ .rightParen ∧ ¬ t.isTrivia ∧ ∃ p mid more,
        Reads (g.phrase depth true (t :: s)) p mid ∧ Reads (g.arguments depth mid) more rest ∧
        args = .phrase p more) := by
  rw [arguments]
  by_cases hr : t.kind = .rightParen
  · have ht : ¬ t.isTrivia := by simp [Token.isTrivia, hr, Kind.isTrivia]
    simp [hr, ht]
  · by_cases ht : t.isTrivia
    · simp only [if_neg hr, if_pos ht, reads_bind_iff, reads_ok_iff]
      constructor
      · rintro ⟨more, rest, _, h, rfl, rfl⟩
        exact .inr (.inl ⟨ht, more, h, rfl⟩)
      · rintro (⟨h, _⟩ | ⟨_, more, h, rfl⟩ | ⟨_, h, _⟩)
        · exact (hr h).elim
        · exact ⟨more, rest, h.length_lt, h, rfl, rfl⟩
        · exact (h ht).elim
    · simp only [if_neg hr, if_neg ht, reads_bind_iff, reads_ok_iff]
      constructor
      · rintro ⟨p, mid, _, hp, more, rest, _, h, rfl, rfl⟩
        exact .inr (.inr ⟨hr, ht, p, mid, more, hp, h, rfl⟩)
      · rintro (⟨h, _⟩ | ⟨h, _⟩ | ⟨_, _, p, mid, more, hp, h, rfl⟩)
        · exact (hr h).elim
        · exact (ht h).elim
        · exact ⟨p, mid, hp.length_lt, hp, more, rest, h.length_lt, h, rfl, rfl⟩

theorem program_cons_eq_ok_iff {t : Token} {ps : List Phrase} :
    g.program (t :: s) = .ok ps ↔ ∃ p mid qs, Reads (g.phrase 0 false (t :: s)) p mid ∧
      g.program mid = .ok qs ∧ ps = p :: qs := by
  rw [program]
  simp only [bind_eq_ok_iff]
  constructor
  · rintro ⟨⟨p, mid, h⟩, hp, qs, hq, he⟩
    exact ⟨p, mid, qs, ⟨h, hp⟩, hq, (Except.ok.inj he).symm⟩
  · rintro ⟨p, mid, qs, ⟨h, hp⟩, hq, rfl⟩
    exact ⟨⟨p, mid, h⟩, hp, qs, hq, rfl⟩

section Induction

variable {onOperand onArguments : Nat → Stream → Prop} {onPhrase : Nat → Bool → Stream → Prop}
  {onChain : Nat → UInt32 → Stream → Prop} {onClimb : Nat → UInt32 → Expr → Stream → Prop}

/-- Induction along the calls that the reading functions make of each other, with one case for each
function. After a first call, nothing is said of what is left but that it is shorter. -/
theorem induct (g : Grammar)
    (hoperand : ∀ {depth s}, (∀ callee opening mid, s = callee :: opening :: mid →
      callee.kind = .identifier → opening.kind = .leftParen → onArguments depth mid) →
      onOperand depth s)
    (hnil : ∀ {depth}, onArguments depth [])
    (hcons : ∀ {depth t s}, (t.isTrivia → onArguments depth s) →
      (t.kind ≠ .rightParen → ¬ t.isTrivia → onPhrase depth true (t :: s) ∧
        ∀ mid : Stream, mid.length < (t :: s).length → onArguments depth mid) →
      onArguments depth (t :: s))
    (hphrase : ∀ {depth inCall s}, onChain (depth + 1) 0 s.pastTrivia → onPhrase depth inCall s)
    (hchain : ∀ {depth minimum s}, onOperand depth s →
      (∀ left (mid : Stream), mid.length < s.length → onClimb depth minimum left mid) →
      onChain depth minimum s)
    (hclimb : ∀ {depth minimum left s},
      (∀ op, g.operators.get? s.pastGap.next.kind = some op → minimum ≤ op.precedence →
        onChain (depth + 1) op.rightMinimum s.pastOperator.pastTrivia ∧
        ∀ right (mid : Stream), mid.length < s.pastOperator.pastTrivia.length →
          onClimb depth minimum
            (.binary left s.gap s.pastGap.next s.pastOperator.trivia right) mid) →
      onClimb depth minimum left s) :
    (∀ depth s, onOperand depth s) ∧ (∀ depth s, onArguments depth s) ∧
    (∀ depth inCall s, onPhrase depth inCall s) ∧ (∀ depth minimum s, onChain depth minimum s) ∧
    ∀ depth minimum left s, onClimb depth minimum left s := by
  apply operand.mutual_induct g
  case case1 =>
    intro depth
    apply hoperand
    rintro _ _ _ ⟨⟩
  case case2 =>
    intro depth t _
    apply hoperand
    rintro _ _ _ ⟨⟩
  case case3 =>
    intro depth t _ opening s _ ih
    apply hoperand
    rintro _ _ _ ⟨⟩ _ _
    exact ih
  case case4 =>
    intro depth t _ opening s ho
    apply hoperand
    rintro _ _ _ ⟨⟩ _ ho'
    exact (ho ho').elim
  case case5 =>
    intro depth t s hi
    apply hoperand
    rintro _ _ _ ⟨⟩ hi' _
    exact (hi hi').elim
  case case6 =>
    intro depth
    exact hnil
  case case7 =>
    intro depth t s hr
    apply hcons
    · intro ht
      simp [Token.isTrivia, hr, Kind.isTrivia] at ht
    · intro h
      exact (h hr).elim
  case case8 =>
    intro depth t s _ ht ih
    apply hcons
    · intro _
      exact ih
    · intro _ h
      exact (h ht).elim
  case case9 =>
    intro depth t s _ ht hp hm
    apply hcons
    · intro h
      exact (ht h).elim
    · intro _ _
      exact ⟨hp, hm⟩
  case case10 =>
    intro depth inCall s
    exact hphrase
  case case11 =>
    intro depth minimum s
    exact hchain
  case case12 =>
    intro depth minimum left s h
    apply hclimb
    intro op hop
    simp [h] at hop
  case case13 =>
    intro depth minimum left s op h hlt
    apply hclimb
    intro op' hop hle
    obtain rfl : op = op' := by simpa [h] using hop
    exact (UInt32.not_lt.mpr hle hlt).elim
  case case14 =>
    intro depth minimum left s op h _ hc hm
    apply hclimb
    intro op' hop _
    obtain rfl : op = op' := by simpa [h] using hop
    exact ⟨hc, hm⟩

end Induction

end Grammar

end Verbatim
