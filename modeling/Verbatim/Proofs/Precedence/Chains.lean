import Verbatim.Proofs.Block.Tree
import Verbatim.Proofs.Precedence.Arranged

/-! # Chains of operators

A chain is the expression of a phrase: operands and operators up to a token that is no operator.
Where no operator overflows, each chain of a program, those of arguments included, is arranged by
precedence and goes on as long as it can.
-/

namespace Verbatim

open Token (Kind Stream)

/-- A chain with the stream that follows it. -/
structure Chain where
  expr : Expr
  after : Stream
  deriving DecidableEq

mutual

def Expr.chains (e : Expr) (rest : Stream) : List Chain :=
  match e with
  | .name _ => []
  | .call _ _ args closing => args.chains (closing :: rest)
  | .binary left gap op trivia right =>
    left.chains (gap ++ op :: (trivia ++ (right.tokens ++ rest))) ++ right.chains rest

def Phrase.chains (p : Phrase) (rest : Stream) : List Chain :=
  match p with
  | .mk _ core gap junk trailing =>
    ⟨core, gap ++ (junk ++ (trailing ++ rest))⟩ ::
      core.chains (gap ++ (junk ++ (trailing ++ rest)))

def Args.chains (args : Args) (rest : Stream) : List Chain :=
  match args with
  | .nil => []
  | .trivia _ more => more.chains rest
  | .phrase p more => p.chains (more.tokens ++ rest) ++ more.chains rest

end

def Phrase.allChains : List Phrase → Stream → List Chain
  | [], _ => []
  | p :: ps, rest => p.chains (ps.flatMap tokens ++ rest) ++ allChains ps rest

namespace Chain

/-- What reading makes of a chain in the stream `s`. -/
structure ReadIn (ops : Operators) (s : Stream) (c : Chain) : Prop where
  suffix : c.expr.tokens ++ c.after <:+ s
  fits : c.expr.Fits ops c.after
  stops : ops.StopsAt 0 c.after

/-- The tree of a chain is the only one that precedence allows for its operands and operators, and
no operator follows. -/
structure Climbed (ops : Operators) (c : Chain) : Prop where
  arranged : c.expr.Arranged ops
  unique : ∀ e : Expr, e.spine = c.expr.spine → e.Arranged ops → e = c.expr
  shunted : shuntingYard ops Expr.join c.expr.spine.1 c.expr.spine.2 = c.expr
  maximal : ops.get? c.after.pastGap.next.kind = none

variable {ops : Operators} {s s' : Stream} {c : Chain}

theorem ReadIn.of_suffix (h : c.ReadIn ops s) (hs : s <:+ s') : c.ReadIn ops s' :=
  ⟨h.suffix.trans hs, h.fits, h.stops⟩

theorem ReadIn.climbed (h : c.ReadIn ops s) (hb : ops.Bounded) : c.Climbed ops where
  arranged := h.fits.arranged hb
  unique _ hs he := ShuntingYard.eq_of_spine_eq he (h.fits.arranged hb) hs
  shunted := ShuntingYard.shuntingYard_spine (h.fits.arranged hb)
  maximal := by
    apply Option.eq_none_iff_forall_ne_some.mpr
    intro op hop
    exact UInt32.not_lt_zero (h.stops op hop)

end Chain

variable {ops : Operators}

mutual

theorem Expr.Fits.readIn : ∀ {e : Expr} {rest : Stream}, e.Fits ops rest →
    ∀ c ∈ e.chains rest, c.ReadIn ops (e.tokens ++ rest)
  | .name _, _, _, _, hc => by cases hc
  | .call callee opening args closing, rest, ⟨_, _, _, hf⟩, c, hc => by
    rw [Expr.tokens_call_append]
    exact (hf.readIn c hc).of_suffix ⟨[callee, opening], rfl⟩
  | .binary left gap op trivia right, rest, ⟨hl, hr, _⟩, c, hc => by
    rw [Expr.tokens_binary_append]
    rcases List.mem_append.mp hc with hc | hc
    · exact hl.readIn c hc
    · exact (hr.readIn c hc).of_suffix ⟨left.tokens ++ (gap ++ op :: trivia), by simp⟩

theorem Phrase.Fits.readIn : ∀ {p : Phrase} {inCall : Bool} {rest : Stream},
    p.Fits ops inCall rest → ∀ c ∈ p.chains rest, c.ReadIn ops (p.tokens ++ rest)
  | .mk leading core gap junk trailing, inCall, rest, ⟨_, hf, hs, _⟩, c, hc => by
    rw [Phrase.tokens_mk_append]
    rcases List.mem_cons.mp hc with rfl | hc
    · exact ⟨List.suffix_append leading _, hf, hs⟩
    · exact (hf.readIn c hc).of_suffix (List.suffix_append leading _)

theorem Args.Fits.readIn : ∀ {args : Args} {rest : Stream}, args.Fits ops rest →
    ∀ c ∈ args.chains rest, c.ReadIn ops (args.tokens ++ rest)
  | .nil, _, _, _, hc => by cases hc
  | .trivia t more, rest, ⟨_, hf⟩, c, hc =>
    (hf.readIn c hc).of_suffix (List.suffix_cons t _)
  | .phrase p more, rest, ⟨_, hp, hf⟩, c, hc => by
    rw [Args.tokens, List.append_assoc]
    rcases List.mem_append.mp hc with hc | hc
    · exact hp.readIn c hc
    · exact (hf.readIn c hc).of_suffix (List.suffix_append p.tokens _)

end

theorem Phrase.AllFit.readIn {inCall : Bool} : ∀ {ps : List Phrase} {rest : Stream},
    AllFit ops inCall ps rest →
    ∀ c ∈ allChains ps rest, c.ReadIn ops (ps.flatMap tokens ++ rest)
  | [], _, _, _, hc => by cases hc
  | p :: ps, rest, ⟨hp, hps⟩, c, hc => by
    rw [List.flatMap_cons, List.append_assoc]
    rcases List.mem_append.mp hc with hc | hc
    · exact hp.readIn c hc
    · exact (hps.readIn c hc).of_suffix (List.suffix_append p.tokens _)

mutual

theorem Expr.tree_mem_descendants {c : Chain} : ∀ {e : Expr} {rest : Stream},
    c ∈ e.chains rest → c.expr.tree ∈ e.tree.descendants
  | .name _, _, hc => by cases hc
  | .call _ _ args closing, _, hc => args.tree_mem_nodes hc
  | .binary left gap op trivia right, rest, hc => by
    refine List.mem_append_left _ (List.mem_append.mpr ?_)
    exact (List.mem_append.mp hc).imp left.tree_mem_descendants right.tree_mem_descendants

theorem Phrase.tree_mem_descendants {c : Chain} : ∀ {p : Phrase} {rest : Stream},
    c ∈ p.chains rest → c.expr.tree ∈ p.tree.descendants ++ [p.tree]
  | .mk _ core _ _ _, rest, hc => by
    rcases List.mem_cons.mp hc with rfl | hc
    · exact List.mem_append_right _ List.mem_cons_self
    · exact List.mem_append_left _ (core.tree_mem_descendants hc)

theorem Args.tree_mem_nodes {c : Chain} : ∀ {args : Args} {rest : Stream},
    c ∈ args.chains rest → c.expr.tree ∈ Tree.nodes args.trees
  | .nil, _, hc => by cases hc
  | .trivia _ more, _, hc => more.tree_mem_nodes hc
  | .phrase p more, _, hc => by
    rw [Args.trees, Tree.nodes, List.append_cons]
    exact List.mem_append.mpr
      ((List.mem_append.mp hc).imp p.tree_mem_descendants more.tree_mem_nodes)

end

theorem Phrase.tree_mem_nodes {c : Chain} : ∀ {ps : List Phrase} {rest : Stream},
    c ∈ allChains ps rest → c.expr.tree ∈ Tree.nodes (ps.map tree)
  | [], _, hc => by cases hc
  | p :: ps, _, hc => by
    rw [List.map_cons, Tree.nodes, List.append_cons]
    exact List.mem_append.mpr
      ((List.mem_append.mp hc).imp p.tree_mem_descendants Phrase.tree_mem_nodes)

namespace Block

/-- The terms of a parsed block show the nodes of its phrases, which are made of the tokens. Each
chain among them, at the top and in arguments, has the one tree that precedence allows, which is
what the shunting yard builds, and ends where no operator follows. -/
theorem climbed_of_parse {g : Grammar} {tokens : List Token} {b : Block}
    (hb : g.operators.Bounded) (h : parse g tokens = .ok b) :
    ∃ ps, g.program tokens = .ok ps ∧ tokens = ps.flatMap Phrase.tokens ∧ b = ofPhrases 0 ps ∧
      List.Forall₂ b.Shows b (Tree.nodes (ps.map Phrase.tree)) ∧
      ∀ c ∈ Phrase.allChains ps [], c.expr.tree ∈ Tree.nodes (ps.map Phrase.tree) ∧
        c.expr.tokens ++ c.after <:+ tokens ∧ c.Climbed g.operators := by
  obtain ⟨ps, hps, rfl⟩ := parse_eq_ok_iff.mp h
  obtain ⟨htokens, hf, _⟩ := Grammar.program_eq_ok_iff.mp hps
  refine ⟨ps, hps, htokens, rfl, shows_nodes ps, ?_⟩
  intro c hc
  have hr := hf.readIn c hc
  rw [List.append_nil, ← htokens] at hr
  exact ⟨Phrase.tree_mem_nodes hc, hr.suffix, hr.climbed hb⟩

/-- Two operators of one precedence that associate to different sides, in a call and around it. -/
theorem climbed_of_parse_mixed :
    let ops := Operators.ofList [(.slash, ⟨1, .right⟩), (.unrecognized, ⟨1, .left⟩)]
    let tokens := tokenize "a + b / f(c / d + e / g) / h + i"
    let t (i : Nat) : Token := Stream.peek tokens i
    let name (i : Nat) : Expr := .name (t i)
    let join (left : Expr) (i : Nat) (right : Expr) : Expr :=
      .binary left [t (i - 1)] (t i) [t (i + 1)] right
    let inner := join (name 10) 12 (join (join (name 14) 16 (name 18)) 20 (name 22))
    let call := Expr.call (t 8) (t 9) (.phrase (.mk [] inner [] [] []) .nil) (t 23)
    let outer := join (join (name 0) 2 (name 4)) 6 (join call 25 (join (name 27) 29 (name 31)))
    ops.Bounded ∧ ∃ b ps, parse { operators := ops } tokens = .ok b ∧
      tokens = ps.flatMap Phrase.tokens ∧ b = ofPhrases 0 ps ∧
      Phrase.allChains ps [] = [⟨outer, []⟩, ⟨inner, tokens.drop 23⟩] ∧
      ∀ c ∈ Phrase.allChains ps [], c.Climbed ops := by
  intro ops tokens t name join inner call outer
  have hb : ops.Bounded := by
    intro kind op hop
    cases kind <;> cases hop <;> decide
  obtain ⟨ps, hps, hchains⟩ := exists_of_any (x := Grammar.program { operators := ops } tokens)
    (p := fun ps => Phrase.allChains ps [] = [⟨outer, []⟩, ⟨inner, tokens.drop 23⟩])
    (by decide +kernel)
  have hparse : parse { operators := ops } tokens = .ok (ofPhrases 0 ps) :=
    parse_eq_ok_iff.mpr ⟨ps, hps, rfl⟩
  obtain ⟨ps', hps', htokens, -, -, hc⟩ := climbed_of_parse hb hparse
  obtain rfl := Except.ok.inj (hps.symm.trans hps')
  exact ⟨hb, _, ps, hparse, htokens, rfl, of_decide_eq_true hchains, fun c h => (hc c h).2.2⟩

end Block

end Verbatim
