import Verbatim.Proofs.Reading.Step
import Mathlib.Data.List.TakeWhile

/-! # Trees that fit a stream

A tree fits before a stream when its tokens, with that stream after them, are grouped as reading
groups them. Fitting is a matter of the tree and of what can be seen behind it; how deep trees
nest is counted apart.
-/

namespace Verbatim

open Token (Kind Stream)

theorem Token.isTrivia_of_isWhitespace {t : Token} (h : t.isWhitespace) : t.isTrivia := by
  rw [isWhitespace, beq_iff_eq] at h
  rw [isTrivia, h]
  rfl

namespace Token.Stream

variable {s gap trivia rest : Stream}

@[simp] theorem next_cons (t : Token) (s : Stream) : Stream.next (t :: s) = t := rfl

section Cons

variable {t : Token}

theorem pastGap_cons (h : t.isWhitespace) (s : Stream) : Stream.pastGap (t :: s) = s.pastGap :=
  List.dropWhile_cons_of_pos h

theorem pastGap_cons_of_not (h : ¬ t.isWhitespace) (s : Stream) :
    Stream.pastGap (t :: s) = t :: s :=
  List.dropWhile_cons_of_neg h

theorem pastTrivia_cons (h : t.isTrivia) (s : Stream) :
    Stream.pastTrivia (t :: s) = s.pastTrivia :=
  List.dropWhile_cons_of_pos h

theorem pastTrivia_cons_of_not (h : ¬ t.isTrivia) (s : Stream) :
    Stream.pastTrivia (t :: s) = t :: s :=
  List.dropWhile_cons_of_neg h

end Cons

theorem pastGap_append (h : ∀ t ∈ gap, t.isWhitespace) :
    Stream.pastGap (gap ++ rest) = rest.pastGap :=
  List.dropWhile_append_of_pos h

theorem gap_append (h : ∀ t ∈ gap, t.isWhitespace) : Stream.gap (gap ++ rest) = gap ++ rest.gap :=
  List.takeWhile_append_of_pos h

theorem pastTrivia_append (h : ∀ t ∈ trivia, t.isTrivia) :
    Stream.pastTrivia (trivia ++ rest) = rest.pastTrivia :=
  List.dropWhile_append_of_pos h

theorem trivia_append (h : ∀ t ∈ trivia, t.isTrivia) :
    Stream.trivia (trivia ++ rest) = trivia ++ rest.trivia :=
  List.takeWhile_append_of_pos h

theorem isTrivia_of_mem_trivia {t : Token} (h : t ∈ s.trivia) : t.isTrivia :=
  List.mem_takeWhile_imp h

theorem isWhitespace_of_mem_gap {t : Token} (h : t ∈ s.gap) : t.isWhitespace :=
  List.mem_takeWhile_imp h

theorem pastOperator_pastTrivia_suffix (s : Stream) : s.pastOperator.pastTrivia <:+ s :=
  (List.dropWhile_suffix _).trans ((List.tail_suffix _).trans (List.dropWhile_suffix _))

theorem next_pastTrivia_not_isTrivia (s : Stream) : ¬ s.pastTrivia.next.isTrivia := by
  have h := List.head?_dropWhile_not Token.isTrivia s
  cases hs : s.pastTrivia with
  | nil => decide
  | cons t rest =>
    rw [show s.dropWhile Token.isTrivia = t :: rest from hs] at h
    simpa using h

theorem cut_trivia (ht : ∀ t ∈ trivia, t.isTrivia) (hn : ¬ rest.next.isTrivia) :
    Stream.trivia (trivia ++ rest) = trivia ∧ Stream.pastTrivia (trivia ++ rest) = rest := by
  rw [trivia_append ht, pastTrivia_append ht]
  cases rest with
  | nil => exact ⟨List.append_nil _, rfl⟩
  | cons t rest =>
    rw [show Stream.trivia (t :: rest) = [] from List.takeWhile_cons_of_neg hn, List.append_nil]
    exact ⟨rfl, pastTrivia_cons_of_not hn rest⟩

/-- What is found around an operator. -/
theorem cut_operator {op : Token} (hg : ∀ t ∈ gap, t.isWhitespace) (hw : ¬ op.isWhitespace)
    (ht : ∀ t ∈ trivia, t.isTrivia) (hn : ¬ rest.next.isTrivia) :
    let s : Stream := gap ++ op :: (trivia ++ rest)
    s.gap = gap ∧ s.pastGap.next = op ∧ s.pastOperator.trivia = trivia ∧
      s.pastOperator.pastTrivia = rest := by
  intro s
  have hgap : s.gap = gap := by
    rw [gap_append hg]
    exact (congrArg _ (List.takeWhile_cons_of_neg hw)).trans (List.append_nil _)
  have hpast : s.pastGap = op :: (trivia ++ rest) :=
    (pastGap_append hg).trans (pastGap_cons_of_not hw _)
  have hop : s.pastOperator = trivia ++ rest := by rw [pastOperator, hpast]; rfl
  rw [hop, hpast]
  exact ⟨hgap, rfl, cut_trivia ht hn⟩

/-- The parts of what follows an expression: whitespace, skipped tokens and trivia, each as long
as it can be, before `rest`. -/
structure Recovers (inCall : Bool) (gap junk trailing rest : Stream) : Prop where
  blank_eq : Stream.blank (gap ++ (junk ++ (trailing ++ rest))) = gap
  junk_eq : Stream.junk inCall (junk ++ (trailing ++ rest)) = junk
  trivia_eq : Stream.trivia (trailing ++ rest) = trailing

variable {inCall : Bool} {junk trailing : Stream}

theorem Recovers.pastBlank_eq (h : Recovers inCall gap junk trailing rest) :
    Stream.pastBlank (gap ++ (junk ++ (trailing ++ rest))) = junk ++ (trailing ++ rest) := by
  have hs := Stream.blank_append_pastBlank (gap ++ (junk ++ (trailing ++ rest)))
  rw [h.blank_eq] at hs
  exact List.append_cancel_left hs

theorem Recovers.pastJunk_eq (h : Recovers inCall gap junk trailing rest) :
    Stream.pastJunk inCall (junk ++ (trailing ++ rest)) = trailing ++ rest := by
  have hs := Stream.junk_append_pastJunk inCall (junk ++ (trailing ++ rest))
  rw [h.junk_eq] at hs
  exact List.append_cancel_left hs

theorem Recovers.pastTrivia_eq (h : Recovers inCall gap junk trailing rest) :
    Stream.pastTrivia (trailing ++ rest) = rest := by
  have hs := Stream.trivia_append_pastTrivia (trailing ++ rest)
  rw [h.trivia_eq] at hs
  exact List.append_cancel_left hs

theorem recovers_iff : Recovers inCall gap junk trailing rest ∧
      s = gap ++ (junk ++ (trailing ++ rest)) ↔
    gap = s.blank ∧ junk = s.pastBlank.junk inCall ∧
      trailing = Stream.trivia (s.pastBlank.pastJunk inCall) ∧
      rest = Stream.pastTrivia (s.pastBlank.pastJunk inCall) := by
  constructor
  · rintro ⟨h, rfl⟩
    rw [h.pastBlank_eq, h.pastJunk_eq, h.blank_eq, h.junk_eq, h.trivia_eq, h.pastTrivia_eq]
    exact ⟨rfl, rfl, rfl, rfl⟩
  · rintro ⟨rfl, rfl, rfl, rfl⟩
    have ht := Stream.trivia_append_pastTrivia (s.pastBlank.pastJunk inCall)
    have hj := Stream.junk_append_pastJunk inCall s.pastBlank
    have hb := s.blank_append_pastBlank
    refine ⟨⟨?_, ?_, ?_⟩, ?_⟩
    · rw [ht, hj, hb]
    · rw [ht, hj]
    · rw [ht]
    · rw [ht, hj, hb]

theorem recovers_self (s : Stream) (inCall : Bool) :
    Recovers inCall s.blank (s.pastBlank.junk inCall)
        (Stream.trivia (s.pastBlank.pastJunk inCall))
        (Stream.pastTrivia (s.pastBlank.pastJunk inCall)) ∧
      s = s.blank ++ (s.pastBlank.junk inCall ++ (Stream.trivia (s.pastBlank.pastJunk inCall) ++
        Stream.pastTrivia (s.pastBlank.pastJunk inCall))) :=
  recovers_iff.mpr ⟨rfl, rfl, rfl, rfl⟩

end Token.Stream

section Tokens

variable {rest : Stream}

@[simp] theorem Expr.tokens_name_append {ident : Token} :
    (Expr.name ident).tokens ++ rest = ident :: rest := by
  simp [Expr.tokens]

@[simp] theorem Expr.tokens_call_append {callee opening closing : Token} {args : Args} :
    (Expr.call callee opening args closing).tokens ++ rest =
      callee :: opening :: (args.tokens ++ closing :: rest) := by
  simp [Expr.tokens]

@[simp] theorem Expr.tokens_binary_append {left right : Expr} {gap trivia : List Token}
    {op : Token} : (Expr.binary left gap op trivia right).tokens ++ rest =
      left.tokens ++ (gap ++ op :: (trivia ++ (right.tokens ++ rest))) := by
  simp [Expr.tokens]

@[simp] theorem Phrase.tokens_mk_append {leading gap junk trailing : List Token} {core : Expr} :
    (Phrase.mk leading core gap junk trailing).tokens ++ rest =
      leading ++ (core.tokens ++ (gap ++ (junk ++ (trailing ++ rest)))) := by
  simp [Phrase.tokens]

end Tokens

theorem Operator.le_precedence_of_lt {op : Operator} {n : UInt32} (h : n < op.rightMinimum) :
    n ≤ op.precedence := by
  unfold rightMinimum at h
  split at h <;> grind

def Expr.operator? (ops : Operators) : Expr → Option Operator
  | .binary _ _ op _ _ => ops.get? op.kind
  | _ => none

/-- The operators whose right operands end where the expression ends. -/
def Expr.edge (ops : Operators) : Expr → List Operator
  | .binary _ _ op _ right => (ops.get? op.kind).toList ++ right.edge ops
  | _ => []

/-- Whether `op` may join `left` and `right`: the right operands at the end of `left` were closed
when `op` came, and an operator at the top of `right` binds tightly enough. -/
structure Operator.Joins (ops : Operators) (op : Operator) (left right : Expr) : Prop where
  left_closed : ∀ q ∈ left.edge ops, op.precedence < q.rightMinimum
  right_tight : ∀ r, right.operator? ops = some r → op.rightMinimum ≤ r.precedence

def Phrase.leading : Phrase → List Token
  | mk leading _ _ _ _ => leading

mutual

def Expr.Fits (ops : Operators) (e : Expr) (rest : Stream) : Prop :=
  match e with
  | .name ident => ident.kind = .identifier ∧ rest.next.kind ≠ .leftParen
  | .call callee opening args closing =>
    callee.kind = .identifier ∧ opening.kind = .leftParen ∧ closing.kind = .rightParen ∧
      args.Fits ops (closing :: rest)
  | .binary left gap op trivia right =>
    left.Fits ops (gap ++ op :: (trivia ++ (right.tokens ++ rest))) ∧ right.Fits ops rest ∧
      (∀ t ∈ gap, t.isWhitespace) ∧ ¬ op.isWhitespace ∧ (∀ t ∈ trivia, t.isTrivia) ∧
      ∃ p, ops.get? op.kind = some p ∧ p.Joins ops left right

def Phrase.Fits (ops : Operators) (inCall : Bool) (p : Phrase) (rest : Stream) : Prop :=
  match p with
  | .mk leading core gap junk trailing =>
    (∀ t ∈ leading, t.isTrivia) ∧ core.Fits ops (gap ++ (junk ++ (trailing ++ rest))) ∧
      ops.StopsAt 0 (gap ++ (junk ++ (trailing ++ rest))) ∧
      Stream.Recovers inCall gap junk trailing rest

def Args.Fits (ops : Operators) (args : Args) (rest : Stream) : Prop :=
  match args with
  | .nil => rest = [] ∨ rest.next.kind = .rightParen
  | .trivia t more => t.isTrivia ∧ more.Fits ops rest
  | .phrase p more => p.leading = [] ∧ p.Fits ops true (more.tokens ++ rest) ∧ more.Fits ops rest

end

mutual

/-- The greatest nesting level in an expression that has level `n`. The arguments of a call and
the right operand of a binary expression are one level further down. -/
def Expr.deepest (n : Nat) : Expr → Nat
  | .name _ => n
  | .call _ _ args _ => args.deepest n
  | .binary left _ _ _ right => max (left.deepest n) (right.deepest (n + 1))

def Phrase.deepest (n : Nat) : Phrase → Nat
  | .mk _ core _ _ _ => core.deepest (n + 1)

def Args.deepest (n : Nat) : Args → Nat
  | .nil => n
  | .trivia _ more => more.deepest n
  | .phrase p more => max (p.deepest n) (more.deepest n)

end

def Phrase.AllFit (ops : Operators) (inCall : Bool) : List Phrase → Stream → Prop
  | [], _ => True
  | p :: ps, rest => p.Fits ops inCall (ps.flatMap tokens ++ rest) ∧ AllFit ops inCall ps rest

theorem Args.le_deepest (n : Nat) (args : Args) : n ≤ args.deepest n := by
  cases args with
  | nil => exact Nat.le_refl n
  | trivia _ more => exact more.le_deepest n
  | phrase _ more => exact Nat.le_trans (more.le_deepest n) (Nat.le_max_right ..)

theorem Expr.le_deepest (n : Nat) (e : Expr) : n ≤ e.deepest n := by
  cases e with
  | name _ => exact Nat.le_refl n
  | call _ _ args _ => exact args.le_deepest n
  | binary left _ _ _ _ => exact Nat.le_trans (left.le_deepest n) (Nat.le_max_left ..)

theorem Expr.edge_binary {ops : Operators} {left right : Expr} {gap trivia : List Token}
    {op : Token} {p : Operator} (hp : ops.get? op.kind = some p) :
    (Expr.binary left gap op trivia right).edge ops = p :: right.edge ops := by
  rw [edge, hp]
  rfl

theorem Expr.mem_edge_of_operator? {ops : Operators} {q : Operator} {e : Expr}
    (h : e.operator? ops = some q) : q ∈ e.edge ops := by
  cases e with
  | name => cases h
  | call => cases h
  | binary =>
    rw [edge_binary h]
    exact List.mem_cons_self

theorem Expr.exists_of_mem_edge {ops : Operators} {q : Operator} : ∀ {e : Expr},
    q ∈ e.edge ops → ∃ kind, ops.get? kind = some q
  | .name _, h => by cases h
  | .call .., h => by cases h
  | .binary _ _ op _ _, h => by
    rw [edge] at h
    rcases List.mem_append.mp h with h | h
    · exact ⟨op.kind, Option.mem_toList.mp h⟩
    · exact exists_of_mem_edge h

namespace Expr.Fits

variable {ops : Operators}

theorem exists_tokens : ∀ {e : Expr} {rest : Stream},
    e.Fits ops rest → ∃ t ts, e.tokens = t :: ts ∧ t.kind = .identifier
  | .name ident, _, h => ⟨ident, [], rfl, h.1⟩
  | .call callee opening args closing, _, h => ⟨callee, _, rfl, h.1⟩
  | .binary left gap op trivia right, _, h => by
    obtain ⟨t, ts, ht, hk⟩ := exists_tokens h.1
    exact ⟨t, ts ++ gap ++ op :: (trivia ++ right.tokens), by simp [Expr.tokens, ht], hk⟩

theorem tokens_ne_nil {e : Expr} {rest : Stream} (h : e.Fits ops rest) : e.tokens ≠ [] := by
  obtain ⟨t, ts, ht, -⟩ := h.exists_tokens
  rw [ht]
  exact List.cons_ne_nil t ts

theorem next_kind {e : Expr} {rest : Stream} (h : e.Fits ops rest) (s : Stream) :
    (Stream.next (e.tokens ++ s)).kind = .identifier := by
  obtain ⟨t, ts, ht, hk⟩ := h.exists_tokens
  rw [ht]
  exact hk

theorem next_not_isTrivia {e : Expr} {rest : Stream} (h : e.Fits ops rest) (s : Stream) :
    ¬ (Stream.next (e.tokens ++ s)).isTrivia := by
  simp [Token.isTrivia, h.next_kind, Kind.isTrivia]

end Expr.Fits

theorem Phrase.Fits.tokens_ne_nil {ops : Operators} {inCall : Bool} {p : Phrase} {rest : Stream}
    (h : p.Fits ops inCall rest) : p.tokens ≠ [] := by
  obtain ⟨leading, core, gap, junk, trailing⟩ := p
  simp [tokens, h.2.1.tokens_ne_nil]

theorem Phrase.Fits.exists_tokens {ops : Operators} {inCall : Bool} {p : Phrase} {rest : Stream}
    (h : p.Fits ops inCall rest) (hl : p.leading = []) :
    ∃ t ts, p.tokens = t :: ts ∧ t.kind = .identifier := by
  obtain ⟨leading, core, gap, junk, trailing⟩ := p
  obtain rfl : leading = [] := hl
  obtain ⟨t, ts, ht, hk⟩ := h.2.1.exists_tokens
  exact ⟨t, ts ++ gap ++ junk ++ trailing, by simp [Phrase.tokens, ht], hk⟩

end Verbatim
