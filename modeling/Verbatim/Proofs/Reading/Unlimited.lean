import Verbatim.Proofs.Reading.Exact
import Verbatim.Proofs.Reading.Failure

/-! # Reading without a limit

A limit is never noticed unless it is hit: whatever is returned under it, apart from the error that
it gives rise to, is returned without it as well.
-/

namespace Verbatim.Grammar

open Token (Kind Stream)

def unlimited (g : Grammar) : Grammar :=
  { g with depthLimit := none }

@[simp] theorem operators_unlimited (g : Grammar) : g.unlimited.operators = g.operators := rfl

@[simp] theorem unlimited_allows (g : Grammar) (n : Nat) : g.unlimited.Allows n := by
  rintro _ ⟨⟩

/-- What comes out under the limit of `g` is what comes out without it, or says that the limit was
hit. -/
def Agrees {α : Type} (g : Grammar) (x y : Except ParseError α) : Prop :=
  x = y ∨ ∃ limit position, g.depthLimit = some limit ∧ x = .error (.tooDeep limit position)

section Outcomes

variable {α β : Type} {g : Grammar} {x y : Except ParseError α} {a : α} {e : ParseError}

theorem agrees_refl (x : Except ParseError α) : g.Agrees x x :=
  .inl rfl

theorem Agrees.bind {f f' : α → Except ParseError β} (h : g.Agrees x y)
    (hf : ∀ a, g.Agrees (f a) (f' a)) : g.Agrees (x >>= f) (y >>= f') := by
  rcases h with rfl | ⟨limit, position, hl, rfl⟩
  · cases x with
    | error e => exact agrees_refl _
    | ok a => exact hf a
  · exact .inr ⟨limit, position, hl, rfl⟩

theorem Agrees.eq_ok (h : g.Agrees x y) (hx : x = .ok a) : y = .ok a := by
  rcases h with rfl | ⟨_, _, _, rfl⟩
  · exact hx
  · cases hx

theorem agrees_checkDepth (depth : Nat) (s : Stream) :
    g.Agrees (g.checkDepth depth s) (g.unlimited.checkDepth depth s) := by
  cases h : g.checkDepth depth s with
  | ok => exact .inl rfl
  | error e =>
    obtain ⟨limit, hl, -, rfl⟩ := checkDepth_eq_error_iff.mp h
    exact .inr ⟨limit, _, hl, rfl⟩

end Outcomes

theorem agrees (g : Grammar) :
    (∀ depth s, g.Agrees (g.operand depth s) (g.unlimited.operand depth s)) ∧
    (∀ depth s, g.Agrees (g.arguments depth s) (g.unlimited.arguments depth s)) ∧
    (∀ depth inCall s, g.Agrees (g.phrase depth inCall s) (g.unlimited.phrase depth inCall s)) ∧
    (∀ depth minimum s,
      g.Agrees (g.chain depth minimum s) (g.unlimited.chain depth minimum s)) ∧
    ∀ depth minimum left s,
      g.Agrees (g.climb depth minimum left s) (g.unlimited.climb depth minimum left s) := by
  apply operand.mutual_induct g
  case case1 =>
    intro depth
    simp only [operand]
    exact agrees_refl _
  case case2 =>
    intro depth t hi
    simp only [operand, if_pos hi]
    exact agrees_refl _
  case case3 =>
    intro depth t hi opening s ho ih
    simp only [operand, if_pos hi, if_pos ho]
    exact ih.bind fun _ => agrees_refl _
  case case4 =>
    intro depth t hi opening s ho
    simp only [operand, if_pos hi, if_neg ho]
    exact agrees_refl _
  case case5 =>
    intro depth t s hi
    rw [operand.eq_def, operand.eq_def]
    simp only [if_neg hi]
    exact agrees_refl _
  case case6 =>
    intro depth
    simp only [arguments]
    exact agrees_refl _
  case case7 =>
    intro depth t s hr
    simp only [arguments, if_pos hr]
    exact agrees_refl _
  case case8 =>
    intro depth t s hr ht ih
    simp only [arguments, if_neg hr, if_pos ht]
    exact ih.bind fun _ => agrees_refl _
  case case9 =>
    intro depth t s hr ht hp hm
    simp only [arguments, if_neg hr, if_neg ht]
    exact hp.bind fun p => (hm p.rest p.rest_lt).bind fun _ => agrees_refl _
  case case10 =>
    intro depth inCall s ih
    rw [phrase, phrase]
    exact (agrees_checkDepth depth s).bind fun _ => ih.bind fun _ => agrees_refl _
  case case11 =>
    intro depth minimum s ho hc
    rw [chain, chain]
    exact ho.bind fun p => (hc p.value p.rest p.rest_lt).bind fun _ => agrees_refl _
  case case12 =>
    intro depth minimum left s h
    rw [climb, climb]
    simp only [operators_unlimited, h]
    exact agrees_refl _
  case case13 =>
    intro depth minimum left s op h hlt
    rw [climb, climb]
    simp only [operators_unlimited, h, if_pos hlt]
    exact agrees_refl _
  case case14 =>
    intro depth minimum left s op h hlt hc hm
    rw [climb, climb]
    simp only [operators_unlimited, h, if_neg hlt]
    exact (agrees_checkDepth depth _).bind fun _ => hc.bind fun p =>
      (hm p.value p.rest p.rest_lt).bind fun _ => agrees_refl _

variable {g : Grammar}

theorem agrees_program : ∀ s, g.Agrees (g.program s) (g.unlimited.program s)
  | [] => by
    rw [program, program]
    exact agrees_refl _
  | t :: s => by
    rw [program, program]
    exact (g.agrees.2.2.1 0 false (t :: s)).bind fun p =>
      (agrees_program p.rest).bind fun _ => agrees_refl _
termination_by s => s.length
decreasing_by exact p.rest_lt

theorem Agrees.reads {α : Type} {n : Nat} {x y : Except ParseError (Parsed α n)} {a : α}
    {rest : Stream} (h : g.Agrees x y) (hx : Reads x a rest) : Reads y a rest := by
  obtain ⟨hlt, hx⟩ := hx
  exact ⟨hlt, h.eq_ok hx⟩

section Suffixes

variable {depth : Nat} {minimum : UInt32} {inCall : Bool} {s rest : Stream}

theorem suffix_of_reads_operand {e : Expr} (h : Reads (g.operand depth s) e rest) :
    rest <:+ s := by
  have hu := (g.agrees.1 depth s).reads h
  rw [(g.unlimited.sound.1 depth s (unlimited_allows g depth) e rest hu).1.tokens]
  exact List.suffix_append _ _

theorem suffix_of_reads_arguments {args : Args} (h : Reads (g.arguments depth s) args rest) :
    rest <:+ s := by
  have hu := (g.agrees.2.1 depth s).reads h
  rw [(g.unlimited.sound.2.1 depth s (unlimited_allows g depth) args rest hu).1]
  exact List.suffix_append _ _

theorem suffix_of_reads_phrase {p : Phrase} (h : Reads (g.phrase depth inCall s) p rest) :
    rest <:+ s := by
  rw [(g.sound.2.2.1 depth inCall s p rest h).1]
  exact List.suffix_append _ _

theorem suffix_of_reads_chain {e : Expr} (h : Reads (g.chain depth minimum s) e rest) :
    rest <:+ s := by
  have hu := (g.agrees.2.2.2.1 depth minimum s).reads h
  rw [(g.unlimited.sound.2.2.2.1 depth minimum s (unlimited_allows g depth) e rest hu).1.tokens]
  exact List.suffix_append _ _

end Suffixes

end Verbatim.Grammar
