import Verbatim.Proofs.Precedence.Overflow
import Verbatim.Proofs.Reading.Run
import Mathlib.Data.Finset.Card

/-! # What is open in a run

The frames that are open when a call is made tell the depth that it is made with. They are nested in
such a way that operators that associate to the left do not add up: unless its precedence overflows,
in the right operand of one there are only operators of greater precedence.
-/

namespace Verbatim

open Token (Kind Stream)

namespace Operators

/-- The precedences of the operators that associate to the left. -/
def leftPrecedences (ops : Operators) : Finset UInt32 :=
  (((Kind.all.filterMap ops.get?).filter fun op => op.associativity = .left).map
    Operator.precedence).toFinset

def leftBelow (ops : Operators) (m : Nat) : Nat :=
  (ops.leftPrecedences.filter (·.toNat < m)).card

variable {ops : Operators} {m n : Nat} {kind : Kind} {op : Operator} {precedence : UInt32}

theorem mem_leftPrecedences (h : ops.get? kind = some op) (hl : op.associativity = .left) :
    op.precedence ∈ ops.leftPrecedences := by
  have hk : kind ∈ Kind.all := by cases kind <;> decide
  refine List.mem_toFinset.mpr (List.mem_map_of_mem (List.mem_filter.mpr ⟨?_, by simpa using hl⟩))
  exact List.mem_filterMap.mpr ⟨kind, hk, h⟩

theorem leftBelow_le (m : Nat) : ops.leftBelow m ≤ ops.leftPrecedences.card :=
  Finset.card_filter_le _ _

theorem leftBelow_mono (h : m ≤ n) : ops.leftBelow m ≤ ops.leftBelow n :=
  Finset.card_le_card (Finset.monotone_filter_right _ fun _ _ hp => Nat.lt_of_lt_of_le hp h)

theorem leftBelow_lt (h : precedence ∈ ops.leftPrecedences) (hm : m ≤ precedence.toNat) :
    ops.leftBelow m < ops.leftBelow (precedence.toNat + 1) := by
  refine Finset.card_lt_card ((Finset.ssubset_iff_of_subset ?_).mpr ⟨precedence, ?_, ?_⟩)
  · exact Finset.monotone_filter_right _ fun _ _ hp => by omega
  · simp [h]
  · simp [hm]

end Operators

namespace Grammar

namespace Frame

/-- The least precedence of an operator that may come next, while no operand is due. -/
def minimum? : Frame → Option UInt32
  | expression => some 0
  | call => none
  | right op => some op.rightMinimum

def overflows : Frame → Bool
  | right op => op.Overflows
  | _ => false

def isRight (associativity : Associativity) : Frame → Bool
  | right op => op.associativity = associativity
  | _ => false

/-- The number of open expressions and right operands. -/
def depth (stack : List Frame) : Nat :=
  stack.countP (· != call)

variable {stack : List Frame} {op : Operator}

@[simp] theorem depth_expression : depth (expression :: stack) = depth stack + 1 := by
  simp [depth]

@[simp] theorem depth_call : depth (call :: stack) = depth stack := by
  simp [depth]

@[simp] theorem depth_right : depth (right op :: stack) = depth stack + 1 := by
  simp [depth]

section Counts

variable {a : Associativity}

@[simp] theorem countP_isRight_expression :
    (expression :: stack).countP (isRight a) = stack.countP (isRight a) := by
  simp [isRight]

@[simp] theorem countP_isRight_call :
    (call :: stack).countP (isRight a) = stack.countP (isRight a) := by
  simp [isRight]

theorem countP_isRight_right : (right op :: stack).countP (isRight a) =
    stack.countP (isRight a) + if op.associativity = a then 1 else 0 := by
  simp [isRight, List.countP_cons]

@[simp] theorem countP_overflows_expression :
    (expression :: stack).countP overflows = stack.countP overflows := by
  simp [overflows]

@[simp] theorem countP_overflows_call :
    (call :: stack).countP overflows = stack.countP overflows := by
  simp [overflows]

theorem countP_overflows_of_overflows (h : op.Overflows) :
    (right op :: stack).countP overflows = stack.countP overflows + 1 := by
  simp [overflows, h]

theorem countP_overflows_of_not (h : ¬ op.Overflows) :
    (right op :: stack).countP overflows = stack.countP overflows := by
  simp [overflows, h]

theorem depth_eq (stack : List Frame) : depth stack =
    stack.count expression + stack.countP (isRight .left) + stack.countP (isRight .right) := by
  induction stack with
  | nil => rfl
  | cons f stack ih =>
    cases f with
    | expression =>
      rw [depth_expression, countP_isRight_expression, countP_isRight_expression,
        List.count_cons_self, ih]
      omega
    | call => simpa using ih
    | right op =>
      have hcount : (right op :: stack).count expression = stack.count expression := by simp
      rw [depth_right, countP_isRight_right, countP_isRight_right, hcount, ih]
      cases op.associativity <;> simp <;> omega

end Counts

end Frame

/-- How frames may be nested. Apart from the first expression, all are in a call, and an operator
in an operand binds tightly enough for it. -/
inductive Nested (ops : Operators) : List Frame → Prop where

  | nil : Nested ops []

  | first : Nested ops [.expression]

  | argument {stack : List Frame} :
      Nested ops (.call :: stack) → Nested ops (.expression :: .call :: stack)

  | call {f : Frame} {stack : List Frame} {m : UInt32} :
      Nested ops (f :: stack) → f.minimum? = some m → Nested ops (.call :: f :: stack)

  | right {f : Frame} {stack : List Frame} {m : UInt32} {kind : Kind} {op : Operator} :
      Nested ops (f :: stack) → f.minimum? = some m → ops.get? kind = some op →
      m ≤ op.precedence → Nested ops (.right op :: f :: stack)

/-- What a call knows of the frames that are open. -/
def Call.Within (stack : List Frame) : Call → Prop
  | .program _ => stack = []
  | .phrase depth inCall _ => depth = Frame.depth stack ∧
      (inCall = false ∧ stack = [] ∨ inCall = true ∧ ∃ below, stack = .call :: below)
  | .chain depth minimum _ | .climb depth minimum _ _ => depth = Frame.depth stack ∧
      ∃ f below, stack = f :: below ∧ f.minimum? = some minimum
  | .operand depth _ => depth = Frame.depth stack ∧
      ∃ f below minimum, stack = f :: below ∧ f.minimum? = some minimum
  | .arguments depth _ => depth = Frame.depth stack ∧ ∃ below, stack = .call :: below

/-- The invariant of a run. -/
structure Stacked (g : Grammar) (stack : List Frame) (c : Call) : Prop where
  nested : Nested g.operators stack
  allowed : g.Allows (Frame.depth stack)
  within : c.Within stack

variable {g : Grammar} {stack opened : List Frame} {c c' : Call} {s : Stream}

theorem stacked_program : g.Stacked [] (.program s) :=
  ⟨.nil, fun _ _ => Nat.zero_le _, rfl⟩

theorem Makes.stacked (h : g.Makes c opened c') (hs : g.Stacked stack c) :
    g.Stacked (opened ++ stack) c' := by
  obtain ⟨hn, ha, hw⟩ := hs
  cases h with
  | programPhrase =>
    obtain rfl : stack = [] := hw
    exact ⟨hn, ha, rfl, .inl ⟨rfl, rfl⟩⟩
  | phraseChain hd =>
    obtain ⟨rfl, hb⟩ := hw
    refine ⟨?_, by simpa using checkDepth_eq_ok_iff.mp hd, by simp, _, _, rfl, rfl⟩
    rcases hb with ⟨-, rfl⟩ | ⟨-, below, rfl⟩
    · exact .first
    · exact .argument hn
  | chainOperand =>
    obtain ⟨hd, f, below, rfl, hm⟩ := hw
    exact ⟨hn, ha, hd, f, below, _, rfl, hm⟩
  | operandArguments =>
    obtain ⟨hd, f, below, m, rfl, hm⟩ := hw
    exact ⟨.call hn hm, by simpa using ha, by simpa using hd, _, rfl⟩
  | climbChain hop hle hd =>
    obtain ⟨rfl, f, below, rfl, hm⟩ := hw
    exact ⟨.right hn hm hop hle, by simpa using checkDepth_eq_ok_iff.mp hd, by simp, _, _, rfl, rfl⟩
  | argumentsPhrase => exact ⟨hn, ha, hw.1, .inr ⟨rfl, hw.2⟩⟩
  | programProgram | chainClimb | climbClimb | argumentsTrivia | argumentsArguments =>
    exact ⟨hn, ha, hw⟩

theorem Runs.stacked (h : g.Runs (.program s) stack c) : g.Stacked stack c := by
  induction h with
  | start => exact stacked_program
  | step _ hm ih => exact hm.stacked ih

section Parentheses

theorem Makes.count_call_le (h : g.Makes c opened c') : opened.count .call +
    c'.stream.countP (·.kind = .leftParen) ≤ c.stream.countP (·.kind = .leftParen) := by
  have hle := h.stream_suffix.sublist.countP_le (p := fun t => decide (t.kind = .leftParen))
  cases h with
  | @operandArguments _ callee opening s hc ho =>
    have hs : (callee :: opening :: s).countP (·.kind = .leftParen) =
        s.countP (·.kind = .leftParen) + 1 := by simp [hc, ho]
    rw [Call.stream, Call.stream, hs, List.count_singleton_self, Nat.add_comm]
  | _ => simpa using hle

theorem Runs.count_call_le {start : Call} (h : g.Runs start stack c) : stack.count .call +
    c.stream.countP (·.kind = .leftParen) ≤ start.stream.countP (·.kind = .leftParen) := by
  induction h with
  | start => simp
  | step _ hm ih =>
    have := hm.count_call_le
    rw [List.count_append]
    omega

end Parentheses

theorem Stacked.of_tooDeep {limit : Nat} {position : Position} (hs : g.Stacked stack c)
    (h : g.Raises (.tooDeep limit position) c) :
    g.depthLimit = some limit ∧ Frame.depth stack = limit := by
  have hfull {depth : Nat} {s : Stream} (hd : depth = Frame.depth stack)
      (h : g.checkDepth depth s = .error (.tooDeep limit position)) :
      g.depthLimit = some limit ∧ Frame.depth stack = limit := by
    obtain ⟨l, hl, hle, he⟩ := checkDepth_eq_error_iff.mp h
    injection he with he
    subst he
    have := hs.allowed limit hl
    exact ⟨hl, by omega⟩
  have hw := hs.within
  cases h with
  | expression hd => exact hfull hw.1 hd
  | right _ _ hd => exact hfull hw.1 hd
  | noProduction _ he => cases he
  | unclosed _ _ _ _ he => cases he

namespace Nested

variable {ops : Operators} {f : Frame} {m : UInt32}

theorem count_expression_le (h : Nested ops stack) :
    stack.count .expression ≤ stack.count .call + 1 := by
  have hcall : stack.count .expression ≤ stack.count .call + 1 ∧
      (stack.head? = some .call → stack.count .expression ≤ stack.count .call) := by
    induction h with
    | nil => simp
    | first => simp
    | argument _ ih => simpa using ih.2
    | call _ _ ih => simpa using ⟨Nat.le_succ_of_le ih.1, ih.1⟩
    | right _ _ _ _ ih => simpa using ih.1
  exact hcall.1

/-- Inside the innermost expression and behind the last overflow, the operators to the left have
different precedences, all of them below the least one that may come next. -/
theorem countP_left_add_le : ∀ {f : Frame} {stack : List Frame} {m : UInt32},
    Nested ops (f :: stack) → f.minimum? = some m →
    (f :: stack).countP (Frame.isRight .left) + ops.leftPrecedences.card ≤
      ops.leftPrecedences.card *
        ((f :: stack).count .expression + (f :: stack).countP Frame.overflows) +
        ops.leftBelow m.toNat
  | _, _, _, .first, _ => by simp [Frame.isRight, Frame.overflows]
  | _, _, _, .argument (.call (m := m) h hf), _ => by
    have ih := h.countP_left_add_le hf
    have := ops.leftBelow_le m.toNat
    rw [Frame.countP_isRight_expression, Frame.countP_isRight_call, List.count_cons_self,
      List.count_cons_of_ne (by decide), Frame.countP_overflows_expression,
      Frame.countP_overflows_call, Nat.add_right_comm, Nat.mul_succ]
    omega
  | _, _, _, @right _ f stack m _ op h hf hop hle, hm => by
    obtain rfl := Option.some.inj hm
    have ih := h.countP_left_add_le hf
    have hcount : (Frame.right op :: f :: stack).count .expression =
        (f :: stack).count .expression := by simp
    have hle : m.toNat ≤ op.precedence.toNat := UInt32.le_iff_toNat_le.mp hle
    rw [Frame.countP_isRight_right, hcount]
    cases ha : op.associativity with
    | left =>
      have hlt := Operators.leftBelow_lt (Operators.mem_leftPrecedences hop ha) hle
      by_cases ho : op.Overflows
      · have := ops.leftBelow_le (op.precedence.toNat + 1)
        rw [Frame.countP_overflows_of_overflows ho, if_pos rfl, ← Nat.add_assoc, Nat.mul_succ]
        omega
      · rw [Frame.countP_overflows_of_not ho, Operator.toNat_rightMinimum ho,
          Operator.nextMinimum_of_left ha, if_pos rfl]
        omega
    | right =>
      have ho : ¬ op.Overflows := by
        rw [Operator.Overflows, Operator.nextMinimum_of_right ha]
        exact Nat.not_le.mpr op.precedence.toNat_lt
      have := ops.leftBelow_mono hle
      rw [Frame.countP_overflows_of_not ho, Operator.toNat_rightMinimum ho,
        Operator.nextMinimum_of_right ha, if_neg (by decide)]
      omega

theorem countP_left_le (h : Nested ops stack) : stack.countP (Frame.isRight .left) ≤
    ops.leftPrecedences.card * (stack.count .expression + stack.countP Frame.overflows) := by
  have hle {f : Frame} {below : List Frame} {m : UInt32} (h : Nested ops (f :: below))
      (hm : f.minimum? = some m) : (f :: below).countP (Frame.isRight .left) ≤
        ops.leftPrecedences.card *
          ((f :: below).count .expression + (f :: below).countP Frame.overflows) := by
    have := h.countP_left_add_le hm
    have := ops.leftBelow_le m.toNat
    omega
  cases h with
  | nil => exact Nat.zero_le _
  | first => exact hle .first rfl
  | argument h => exact hle h.argument rfl
  | call h hf => simpa using hle h hf
  | right h hf hop hm => exact hle (h.right hf hop hm) rfl

theorem exists_of_mem {op : Operator} (h : Nested ops stack) (hm : .right op ∈ stack) :
    ∃ kind, ops.get? kind = some op := by
  induction h with
  | nil => cases hm
  | first => simp at hm
  | argument _ ih => exact ih (by simpa using hm)
  | call _ _ ih => exact ih (by simpa using hm)
  | @right _ _ _ kind _ _ _ hop _ ih =>
    rcases List.mem_cons.mp hm with heq | hm
    · obtain rfl := Frame.right.inj heq
      exact ⟨kind, hop⟩
    · exact ih hm

theorem countP_overflows_eq_zero (hb : ops.Bounded) (h : Nested ops stack) :
    stack.countP Frame.overflows = 0 := by
  refine List.countP_eq_zero.mpr fun f hf => ?_
  cases f with
  | expression => exact Bool.false_ne_true
  | call => exact Bool.false_ne_true
  | right op =>
    obtain ⟨kind, hop⟩ := h.exists_of_mem hf
    simpa [Frame.overflows] using hb kind op hop

theorem countP_right_eq_zero (hops : ∀ kind op, ops.get? kind = some op → op.associativity = .left)
    (h : Nested ops stack) : stack.countP (Frame.isRight .right) = 0 := by
  induction h with
  | nil => rfl
  | first => rfl
  | argument _ ih => simpa using ih
  | call _ _ ih => simpa using ih
  | right _ _ hop _ ih => rw [Frame.countP_isRight_right, hops _ _ hop, ih, if_neg (by decide)]

/-- However long the text is, only open calls, operators that associate to the right and operators
that overflow add to the depth without bound. -/
theorem depth_le (h : Nested ops stack) : Frame.depth stack ≤
    (ops.leftPrecedences.card + 1) * (stack.count .call + 1) +
      ops.leftPrecedences.card * stack.countP Frame.overflows +
      stack.countP (Frame.isRight .right) := by
  have hexpr := h.count_expression_le
  have hleft := h.countP_left_le
  have hmul := Nat.mul_le_mul_left ops.leftPrecedences.card hexpr
  rw [Nat.mul_add] at hleft
  rw [Frame.depth_eq, Nat.add_mul, Nat.one_mul]
  omega

end Nested

theorem not_overflows (hb : g.operators.Bounded) : ¬ g.Overflows s := by
  rintro ⟨stack, c, op, hr, hop, ho⟩
  obtain ⟨kind, hget⟩ := hr.stacked.nested.exists_of_mem hop
  exact hb kind op hget ho

end Grammar

end Verbatim
