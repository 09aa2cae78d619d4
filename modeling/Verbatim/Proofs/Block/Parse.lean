import Verbatim.Proofs.Block.Roots
import Verbatim.Proofs.Lexeme.Lossless
import Verbatim.Proofs.Reading.Exact

/-! # Parsed blocks

A parse succeeds if the tokens are those of fitting phrases, and then its block is made of these
phrases. The block gives the text back: no token is lost, doubled or moved.
-/

namespace Verbatim.Block

variable {g : Grammar} {tokens : List Token} {b : Block}

theorem parse_eq_ok_iff : parse g tokens = .ok b ↔
    ∃ ps, g.program tokens = .ok ps ∧ b = ofPhrases 0 ps := by
  unfold parse
  cases g.program tokens <;> simp [Except.map, eq_comm]

/-- The text of a parsed block is that of its tokens, whatever was skipped and whichever operators
were applied. A source text that can be parsed is given back by its block. -/
theorem reconstruct_parse :
    (∀ (g : Grammar) (tokens : List Token) (b : Block),
      parse g tokens = .ok b → b.reconstruct = detokenize tokens) ∧
    ∀ (source : String) (b : Block), parseSource source = .ok b → b.reconstruct = source := by
  have h (g : Grammar) (tokens : List Token) (b : Block) (hb : parse g tokens = .ok b) :
      b.reconstruct = detokenize tokens := by
    obtain ⟨ps, hps, rfl⟩ := parse_eq_ok_iff.mp hb
    rw [reconstruct_ofPhrases, (Grammar.program_eq_ok_iff.mp hps).1]
  refine ⟨h, ?_⟩
  intro source b hb
  rw [h _ _ _ hb, detokenize_tokenize]

/-- Skipped tokens, an operator across lines and a stray parenthesis are given back. -/
theorem reconstruct_parse_junk :
    (∃ b, parse { operators := .ofList [(.slash, ⟨1, .right⟩), (.unrecognized, ⟨0, .left⟩)] }
        (tokenize "f(a / // c\n b ['d' e) + g )] \n") = .ok b ∧
      b.reconstruct = detokenize (tokenize "f(a / // c\n b ['d' e) + g )] \n")) ∧
    ∃ b, parseSource "f(a [b]\n)) g" = .ok b ∧ b.reconstruct = "f(a [b]\n)) g" := by
  refine ⟨(exists_of_isOk ?_).imp fun b hb => ⟨hb, reconstruct_parse.1 _ _ b hb⟩,
    (exists_of_isOk ?_).imp fun b hb => ⟨hb, reconstruct_parse.2 _ b hb⟩⟩
  all_goals decide +kernel

end Verbatim.Block
