import Verbatim.Proofs.Block.Parse
import Verbatim.Proofs.Reading.Exchange

/-! # Tables with the same effect

Of an operator table only the entries count for kinds that can be met as operators, and of their
precedences only the order. So a table has the same effect as any other that compares alike on these
kinds: an entry for whitespace changes nothing, nor does a renumbering that keeps the order.
-/

namespace Verbatim

open Token (Kind Stream)

/-- The kinds that can be met as operators in reading `tokens`: whitespace is passed over, and
behind the last token the end of the stream is met. -/
def Token.Occurs (tokens : List Token) (kind : Kind) : Prop :=
  kind = .endOfStream ∨ kind ≠ .whitespace ∧ ∃ t ∈ tokens, t.kind = kind

namespace Operators

def renumber (f : UInt32 → UInt32) (ops : Operators) : Operators :=
  ⟨ops.entries.map fun e => (e.1, { e.2 with precedence := f e.2.precedence })⟩

/-- Of two precedences that the table gives, `f` takes the greater one to a greater one. -/
def StrictMono (f : UInt32 → UInt32) (ops : Operators) : Prop :=
  ∀ k l p q, ops.get? k = some p → ops.get? l = some q → p.precedence < q.precedence →
    f p.precedence < f q.precedence

variable {occurs : Kind → Prop} {ops ops' : Operators} {f : UInt32 → UInt32}

theorem get?_renumber (f : UInt32 → UInt32) (ops : Operators) (kind : Kind) :
    (ops.renumber f).get? kind =
      (ops.get? kind).map fun p => { p with precedence := f p.precedence } := by
  simp only [get?, renumber]
  induction ops.entries with
  | nil => rfl
  | cons e es ih =>
    obtain ⟨k, op⟩ := e
    simp only [List.map_cons, List.lookup_cons, ih]
    cases kind == k <;> rfl

theorem alikeOn_renumber (hf : StrictMono f ops) (hb : ops.Bounded)
    (hb' : (ops.renumber f).Bounded) : AlikeOn occurs ops (ops.renumber f) := by
  apply alikeOn_of_bounded hb hb'
  · intro kind _
    rw [get?_renumber, Option.map_map]
    rfl
  · intro k l p q p' q' _ _ hp hq hp' hq'
    rw [get?_renumber, hp] at hp'
    rw [get?_renumber, hq] at hq'
    obtain rfl := Option.some.inj hp'
    obtain rfl := Option.some.inj hq'
    have hlt := hf k l p q hp hq
    have hgt := hf l k q p hq hp
    grind

end Operators

mutual

theorem Expr.map_id : ∀ e : Expr, e.map id = e
  | .name _ => rfl
  | .call _ _ args _ => by simp [Expr.map, args.map_id]
  | .binary left _ _ _ right => by simp [Expr.map, left.map_id, right.map_id]

theorem Phrase.map_id : ∀ p : Phrase, p.map id = p
  | .mk _ core _ _ _ => by simp [Phrase.map, core.map_id]

theorem Args.map_id : ∀ args : Args, args.map id = args
  | .nil => rfl
  | .trivia _ rest => by simp [Args.map, rest.map_id]
  | .phrase p rest => by simp [Args.map, p.map_id, rest.map_id]

end

namespace Grammar

variable {occurs : Kind → Prop} {g g' : Grammar} {s : Stream}

theorem program_eq_of_alikeOn (h : AlikeOn occurs g g') (hs : Meets occurs s) :
    g.program s = g'.program s := by
  have hmap := program_map h .refl hs
  have hid : Phrase.map Exchange.refl.token = id := funext Phrase.map_id
  rw [hid, List.map_id_fun] at hmap
  rw [show g'.program s = _ from (congrArg g'.program (List.map_id s)).symm.trans hmap]
  cases g.program s <;> rfl

end Grammar

namespace Block

open Grammar

variable {ops ops' : Operators} {tokens : List Token}

theorem parse_eq_of_alikeOn (h : Operators.AlikeOn (Token.Occurs tokens) ops ops') :
    parse { operators := ops } tokens = parse { operators := ops' } tokens := by
  have hg : AlikeOn (Token.Occurs tokens) { operators := ops } { operators := ops' } := ⟨h, rfl⟩
  have hs : Meets (Token.Occurs tokens) tokens := by
    refine ⟨.inl rfl, fun t ht hw => .inr ⟨?_, t, ht, rfl⟩⟩
    simpa [Token.isWhitespace] using hw
  rw [parse, parse, program_eq_of_alikeOn hg hs]

/-- Tables that compare alike on the kinds that can be met as operators give the same result. So an
entry for whitespace has no effect, nor have the numbers that stand for the precedences. -/
theorem parse_congr_operators (tokens : List Token) :
    (∀ ops ops', Operators.AlikeOn (Token.Occurs tokens) ops ops' →
      parse { operators := ops } tokens = parse { operators := ops' } tokens) ∧
    (∀ ops op, parse { operators := ops.insert .whitespace op } tokens =
      parse { operators := ops } tokens) ∧
    ∀ (ops : Operators) (f : UInt32 → UInt32), Operators.StrictMono f ops → ops.Bounded →
      (ops.renumber f).Bounded →
      parse { operators := ops.renumber f } tokens = parse { operators := ops } tokens := by
  refine ⟨fun ops ops' => parse_eq_of_alikeOn, fun ops op => ?_, fun ops f hf hb hb' => ?_⟩
  · refine parse_eq_of_alikeOn (Operators.alikeOn_of_get?_eq fun kind hk => ?_)
    refine Operators.get?_insert_of_ne _ _ ?_
    rintro rfl
    exact hk.elim (by decide) fun h => h.1 rfl
  · exact (parse_eq_of_alikeOn (Operators.alikeOn_renumber hf hb hb')).symm

/-- Other numbers in the same order, with operators for whitespace and for a kind that is not met,
and a renumbering where the end of the stream is taken for an operator. -/
theorem parse_congr_operators_renumbered :
    let tokens := tokenize "a / b + c [\nd [ e / f(g )) ]"
    let ops := .ofList [(.slash, ⟨1, .left⟩), (.unrecognized, ⟨1, .right⟩),
      (.leftBracket, ⟨2, .right⟩)]
    let ops' := .ofList [(.slash, ⟨7, .left⟩), (.whitespace, ⟨8, .left⟩),
      (.unrecognized, ⟨7, .right⟩), (.leftBracket, ⟨9, .right⟩), (.lineComment, ⟨0, .left⟩)]
    let sentinel := .ofList [(.slash, ⟨1, .left⟩), (.endOfStream, ⟨0, .right⟩)]
    (Operators.AlikeOn (Token.Occurs tokens) ops ops' ∧
      parse { operators := ops } tokens = parse { operators := ops' } tokens) ∧
    Operators.StrictMono (3 * · + 7) sentinel ∧
      (sentinel.Bounded ∧ (sentinel.renumber (3 * · + 7)).Bounded) ∧
      parse { operators := sentinel.renumber (3 * · + 7) } tokens =
        parse { operators := sentinel } tokens := by
  intro tokens ops ops' sentinel
  have halike : Operators.AlikeOn (Token.Occurs tokens) ops ops' := by
    have hcomment : ¬ Token.Occurs tokens .lineComment := by
      unfold Token.Occurs
      decide +kernel
    have hblank : ¬ Token.Occurs tokens .whitespace := by
      unfold Token.Occurs
      decide +kernel
    apply Operators.alikeOn_of_bounded
    · intro kind op hop
      cases kind <;> cases hop <;> decide
    · intro kind op hop
      cases kind <;> cases hop <;> decide
    · intro kind hk
      cases kind
      case whitespace => exact (hblank hk).elim
      case lineComment => exact (hcomment hk).elim
      all_goals rfl
    · intro k l p q p' q' _ _ hp hq hp' hq'
      cases k <;> cases hp <;> cases hp' <;> cases l <;> cases hq <;> cases hq' <;> decide
  have hmono : Operators.StrictMono (3 * · + 7) sentinel := by
    intro k l p q hp hq
    cases k <;> cases hp <;> cases l <;> cases hq <;> decide
  have hb : sentinel.Bounded := by
    intro kind op hop
    cases kind <;> cases hop <;> decide
  have hb' : (sentinel.renumber (3 * · + 7)).Bounded := by
    intro kind op hop
    cases kind <;> cases hop <;> decide
  exact ⟨⟨halike, (parse_congr_operators tokens).1 ops ops' halike⟩, hmono, ⟨hb, hb'⟩,
    (parse_congr_operators tokens).2.2 sentinel _ hmono hb hb'⟩

end Block

end Verbatim
