import Verbatim.Proofs.Block.Tree
import Verbatim.Proofs.Precedence.Arranged

/-! # Rules of the syntax

The grammar of texts without errors, for tables whose operators cannot be taken for anything else:

    program := trivia* chain (trivia* chain)* trivia*
    chain   := item (whitespace* operator trivia* item)*
    item    := identifier
             | identifier '(' (trivia | chain)* ')'

A chain derives a flat sequence of items; its tree is the one that the shunting yard makes of them.
-/

namespace Verbatim

open Token (Kind Stream)

def Tree.join (left : Tree) (k : Link) (right : Tree) : Tree :=
  .binary left k.op right

mutual

/-- The greatest nesting level in a tree that has level `n`. The arguments of a call and the right
operand of a binary tree are one level further down. -/
def Tree.deepest (n : Nat) : Tree → Nat
  | .name _ => n
  | .call _ args => Tree.deepestArg n args
  | .binary left _ right => max (left.deepest n) (right.deepest (n + 1))

def Tree.deepestArg (n : Nat) : List Tree → Nat
  | [] => n
  | u :: us => max (u.deepest (n + 1)) (Tree.deepestArg n us)

end

namespace Syntax

/-- The kinds that are neither trivia nor part of an item. -/
def operatorKinds : List Kind :=
  [.leftBracket, .rightBracket, .singleQuoted, .doubleQuoted, .slash, .unrecognized]

def Unambiguous (ops : Operators) : Prop :=
  ∀ kind, (ops.get? kind).isSome → kind ∈ operatorKinds

/-- What may stand between two items. -/
structure Joint (ops : Operators) (k : Link) : Prop where
  gap : ∀ t ∈ k.gap, t.isWhitespace
  operator : (ops.get? k.op.kind).isSome
  trivia : ∀ t ∈ k.trivia, t.isTrivia

mutual

inductive Item (ops : Operators) : List Token → Tree → Prop where

  | name {ident : Token} : ident.kind = .identifier → Item ops [ident] (.name ident)

  | call {callee opening closing : Token} {ts : List Token} {us : List Tree} :
      callee.kind = .identifier → opening.kind = .leftParen → closing.kind = .rightParen →
      Arguments ops ts us →
      Item ops (callee :: opening :: (ts ++ [closing])) (.call callee us)

/-- The trees are those of the first item and of the others, each with what stands before it. -/
inductive Chain (ops : Operators) : List Token → Tree → List (Link × Tree) → Prop where

  | item {ts : List Token} {u : Tree} : Item ops ts u → Chain ops ts u []

  | link {ts ts' : List Token} {u u' : Tree} {us : List (Link × Tree)} {k : Link} :
      Item ops ts u → Joint ops k → Chain ops ts' u' us →
      Chain ops (ts ++ (k.gap ++ k.op :: (k.trivia ++ ts'))) u ((k, u') :: us)

inductive Arguments (ops : Operators) : List Token → List Tree → Prop where

  | nil : Arguments ops [] []

  | trivia {t : Token} {ts : List Token} {us : List Tree} :
      t.isTrivia → Arguments ops ts us → Arguments ops (t :: ts) us

  | chain {ts ts' : List Token} {u : Tree} {vs : List (Link × Tree)} {us : List Tree} :
      Chain ops ts u vs → Arguments ops ts' us →
      Arguments ops (ts ++ ts') (shuntingYard ops Tree.join u vs :: us)

end

inductive Program (ops : Operators) : List Token → List Tree → Prop where

  | last {leading ts trailing : List Token} {u : Tree} {vs : List (Link × Tree)} :
      (∀ t ∈ leading, t.isTrivia) → Chain ops ts u vs → (∀ t ∈ trailing, t.isTrivia) →
      Program ops (leading ++ (ts ++ trailing)) [shuntingYard ops Tree.join u vs]

  | cons {leading ts ts' : List Token} {u : Tree} {vs : List (Link × Tree)} {us : List Tree} :
      (∀ t ∈ leading, t.isTrivia) → Chain ops ts u vs → Program ops ts' us →
      Program ops (leading ++ (ts ++ ts')) (shuntingYard ops Tree.join u vs :: us)

variable {ops : Operators} {ts ts' trivia : List Token} {u u' : Tree} {us : List Tree}
  {vs vs' : List (Link × Tree)} {k : Link}

theorem Chain.append (hk : Joint ops k) (h' : Chain ops ts' u' vs') :
    ∀ {ts : List Token} {u : Tree} {vs : List (Link × Tree)}, Chain ops ts u vs →
      Chain ops (ts ++ (k.gap ++ k.op :: (k.trivia ++ ts'))) u (vs ++ (k, u') :: vs')
  | _, _, _, .item hi => .link hi hk h'
  | _, _, _, .link hi hj hc => by
    simpa using Chain.link hi hj (Chain.append hk h' hc)

theorem Chain.of_names {a : Token} (ha : a.kind = .identifier) : ∀ {xs : List (Token × Token)},
    (∀ x ∈ xs, (ops.get? x.1.kind).isSome ∧ x.2.kind = .identifier) →
    Chain ops (a :: xs.flatMap fun x => [x.1, x.2]) (.name a)
      (xs.map fun x => (⟨[], x.1, []⟩, .name x.2))
  | [], _ => .item (.name ha)
  | x :: xs, hx => by
    obtain ⟨⟨hop, hk⟩, hxs⟩ := List.forall_mem_cons.mp hx
    exact .link (k := ⟨[], x.1, []⟩) (.name ha) ⟨by simp, hop, by simp⟩ (Chain.of_names hk hxs)

theorem Arguments.trivia_append (ht : ∀ t ∈ trivia, t.isTrivia) (h : Arguments ops ts us) :
    Arguments ops (trivia ++ ts) us := by
  induction trivia with
  | nil => exact h
  | cons t trivia ih =>
    obtain ⟨ht, hts⟩ := List.forall_mem_cons.mp ht
    exact .trivia ht (ih hts)

theorem Program.trivia_append (ht : ∀ t ∈ trivia, t.isTrivia) (h : Program ops ts us) :
    Program ops (trivia ++ ts) us := by
  have happ {leading : List Token} (hl : ∀ t ∈ leading, t.isTrivia) :
      ∀ t ∈ trivia ++ leading, t.isTrivia :=
    List.forall_mem_append.mpr ⟨ht, hl⟩
  cases h with
  | last hl hc htr =>
    rw [← List.append_assoc]
    exact .last (happ hl) hc htr
  | cons hl hc h =>
    rw [← List.append_assoc]
    exact .cons (happ hl) hc h

end Syntax

mutual

theorem Expr.deepest_tree (n : Nat) : ∀ e : Expr, e.tree.deepest n = e.deepest n
  | .name _ => rfl
  | .call _ _ args _ => args.deepestArg_trees n
  | .binary left _ _ _ right => congrArg₂ max (left.deepest_tree n) (right.deepest_tree (n + 1))

theorem Phrase.deepest_tree (n : Nat) : ∀ p : Phrase, p.tree.deepest (n + 1) = p.deepest n
  | .mk _ core _ _ _ => core.deepest_tree (n + 1)

theorem Args.deepestArg_trees (n : Nat) : ∀ args : Args,
    Tree.deepestArg n args.trees = args.deepest n
  | .nil => rfl
  | .trivia _ more => more.deepestArg_trees n
  | .phrase p more => congrArg₂ max (p.deepest_tree n) (more.deepestArg_trees n)

end

theorem Expr.tree_join (left : Expr) (k : Link) (right : Expr) :
    (left.join k right).tree = left.tree.join k right.tree := rfl

theorem Expr.Arranged.shuntingYard_tree {ops : Operators} {e : Expr} (h : e.Arranged ops) :
    shuntingYard ops Tree.join e.spine.1.tree (e.spine.2.map fun x => (x.1, x.2.tree)) =
      e.tree := by
  rw [← ShuntingYard.map_shuntingYard Expr.tree_join, ShuntingYard.shuntingYard_spine h]

end Verbatim
