import Verbatim.Proofs.Reading.Failure
import Verbatim.Proofs.Syntax.Complete

/-! # The language that is accepted

With operators that cannot be taken for anything else and do not overflow, a parse without errors
and a derivation by the rules of the syntax come to the same. Then the roots of the block are the
chains of the program.
-/

namespace Verbatim

open Syntax (Program Unambiguous)
open Token (Stream)

variable {ops : Operators} {tokens : List Token} {b : Block} {us : List Tree}

theorem Syntax.Program.exists_phrases (hu : Unambiguous ops) (hb : ops.Bounded)
    (h : Program ops tokens us) :
    ∃ ps, Grammar.program ⟨ops, none⟩ tokens = .ok ps ∧ (∀ p ∈ ps, p.Clean) ∧
      ps.map Phrase.tree = us := by
  obtain ⟨ps, rfl, hf, hc, hus⟩ := (h.made hu hb).exists_phrases h.ne_nil
  refine ⟨ps, Grammar.program_eq_ok_iff.mpr ⟨rfl, hf, ?_⟩, hc, hus⟩
  rintro _ _ _ ⟨⟩

theorem Grammar.program_of_limit {g : Grammar} {ps : List Phrase} :
    g.program tokens = .ok ps ↔ program ⟨g.operators, none⟩ tokens = .ok ps ∧
      ∀ u ∈ ps.map Phrase.tree, g.Allows (u.deepest 1) := by
  simp only [program_eq_ok_iff, List.forall_mem_map, Phrase.deepest_tree]
  constructor
  · rintro ⟨rfl, hf, hd⟩
    refine ⟨⟨rfl, hf, ?_⟩, hd⟩
    rintro _ _ _ ⟨⟩
  · rintro ⟨⟨rfl, hf, -⟩, hd⟩
    exact ⟨rfl, hf, hd⟩

namespace Block

end Block

end Verbatim
