import Verbatim.Proofs.Lexeme.Spans

/-! # Steps of a cursor

However a cursor is moved on, past the end of its text as well, it stands between two characters of
the text, and the tokens that it cuts are slices of the text.
-/

namespace Verbatim

/-- The bytes at which characters begin that are read from byte `start` on. -/
def offsets (start : Nat) : List Char → List Nat
  | [] => []
  | c :: cs => start :: offsets (start + c.utf8Size) cs

/-- The byte at which a character of a text begins. Past the last one it is the end of the text. -/
def byteOffset (source : String) (index : Nat) : Nat :=
  (offsets 0 source.toList).getD index source.utf8ByteSize

/-- A token stands for a slice of a text, and it is this slice that it stores, if any. -/
structure Token.SlicedFrom (source : String) (t : Token) : Prop where
  start_le_stop : t.span.start ≤ t.span.stop
  stop_le : t.span.stop ≤ source.utf8ByteSize
  start_isValid : String.Pos.Raw.IsValid source ⟨t.span.start⟩
  stop_isValid : String.Pos.Raw.IsValid source ⟨t.span.stop⟩
  eq_slice : ∀ text, t.text = some text → text = t.span.slice source

theorem getD_offsets (start : Nat) (cs : List Char) (index : Nat) :
    (offsets start cs).getD index (start + byteLength cs) =
      start + byteLength (cs.take index) := by
  induction cs generalizing start index with
  | nil => cases index <;> rfl
  | cons c cs ih =>
    cases index with
    | zero => rfl
    | succ index =>
      rw [offsets, List.getD_cons_succ, byteLength, ← Nat.add_assoc, ih, List.take_succ_cons,
        byteLength, Nat.add_assoc]

theorem byteOffset_eq (source : String) (index : Nat) :
    byteOffset source index = byteLength (source.toList.take index) := by
  have h := getD_offsets 0 source.toList index
  rwa [Nat.zero_add, Nat.zero_add, byteLength_toList] at h

namespace Cursor

inductive Step where
  | advance (n : Nat)
  | consume (kind : Token.Kind) (n : Nat) (saveText : Bool)
  | consumeWhile (kind : Token.Kind) (p : Char → Bool)
  | nextToken

def step (c : Cursor) : Step → Option Token × Cursor
  | .advance n => (none, c.advance n)
  | .consume kind n saveText => (c.consume kind n saveText).map some id
  | .consumeWhile kind p => (c.consumeWhile kind p).map some id
  | .nextToken => c.nextToken.map some id

def width (c : Cursor) : Step → Nat
  | .advance n => n
  | .consume _ n _ => n
  | .consumeWhile _ p => (c.rest.tail.takeWhile fun x => x != Lexeme.nul && p x).length + 1
  | .nextToken => (Lexeme.first c.rest).2

def run (c : Cursor) : List Step → List Token × Cursor
  | [] => ([], c)
  | s :: ss =>
    let (t, d) := c.step s
    let (ts, e) := d.run ss
    (t.toList ++ ts, e)

def distance (c : Cursor) : List Step → Nat
  | [] => 0
  | s :: ss => c.width s + (c.step s).2.distance ss

variable {source : String} {before : List Char} {c : Cursor} {t : Token} {s : Step}
  {ss : List Step} {kind : Token.Kind} {n index : Nat} {saveText : Bool}

namespace After

theorem position_le (h : c.After source before) : c.position ≤ source.utf8ByteSize := by
  rw [← byteLength_toList, h.toList_eq, byteLength_append, h.position_eq]
  exact Nat.le_add_right ..

theorem finished_iff (h : c.After source before) :
    c.finished ↔ c.position = source.utf8ByteSize := by
  rw [finished, List.isEmpty_iff, ← byteLength_toList, h.toList_eq, byteLength_append,
    h.position_eq]
  constructor
  · intro hr
    rw [hr]
    rfl
  · intro he
    by_contra hr
    have := byteLength_pos hr
    omega

theorem slicedFrom_consume (h : c.After source before) :
    (c.consume kind n saveText).1.SlicedFrom source where
  start_le_stop := by
    rw [span_consume, position_consume]
    exact Nat.le_add_right ..
  stop_le := by
    rw [span_consume]
    exact h.consume.position_le
  start_isValid := by
    rw [span_consume, h.position_eq]
    exact isValid_byteLength h.toList_eq
  stop_isValid := by
    have hs : (c.consume kind n saveText).2.After source (before ++ c.rest.take n) := h.consume
    rw [span_consume, hs.position_eq]
    exact isValid_byteLength hs.toList_eq
  eq_slice := by
    intro text ht
    rw [text_consume] at ht
    rw [h.slice_span_consume]
    cases saveText with
    | false => cases ht
    | true => exact (Option.some.inj ht).symm

theorem slicedFrom_step (h : c.After source before) (ht : (c.step s).1 = some t) :
    t.SlicedFrom source := by
  cases s with
  | advance => cases ht
  | consume | consumeWhile | nextToken =>
    obtain rfl := Option.some.inj ht
    exact h.slicedFrom_consume

theorem step (h : c.After source before) :
    (c.step s).2.After source (before ++ c.rest.take (c.width s)) := by
  cases s with
  | advance n =>
    constructor
    · rw [List.append_assoc]
      exact h.toList_eq.trans (congrArg _ (List.take_append_drop n c.rest).symm)
    · rw [byteLength_append, ← h.position_eq]
      rfl
  | consume | consumeWhile | nextToken => exact h.consume

theorem rest_eq (h : c.After source (source.toList.take index)) :
    c.rest = source.toList.drop index :=
  List.append_cancel_left (h.toList_eq.symm.trans (List.take_append_drop ..).symm)

theorem finished_iff_length_le (h : c.After source (source.toList.take index)) :
    c.finished ↔ source.length ≤ index := by
  rw [finished, List.isEmpty_iff, h.rest_eq, List.drop_eq_nil_iff, String.length_toList]

theorem step_take (h : c.After source (source.toList.take index)) :
    (c.step s).2.After source (source.toList.take (index + c.width s)) := by
  have hs : (c.step s).2.After source _ := h.step
  rwa [h.rest_eq, ← List.take_add] at hs

end After

theorem After.run (h : c.After source (source.toList.take index)) (ss : List Step) :
    (c.run ss).2.After source (source.toList.take (index + c.distance ss)) := by
  induction ss generalizing c index with
  | nil => exact h
  | cons s ss ih =>
    rw [distance, ← Nat.add_assoc]
    exact ih h.step_take

theorem After.slicedFrom_run (h : c.After source before) :
    ∀ t ∈ (c.run ss).1, t.SlicedFrom source := by
  induction ss generalizing c before with
  | nil => simp [Cursor.run]
  | cons s ss ih =>
    intro t ht
    rcases List.mem_append.mp ht with ht | ht
    · exact h.slicedFrom_step (Option.mem_toList.mp ht)
    · exact ih h.step t ht

theorem run_append (c : Cursor) (ss more : List Step) :
    (c.run (ss ++ more)).2 = ((c.run ss).2.run more).2 := by
  induction ss generalizing c with
  | nil => rfl
  | cons s ss ih => exact ih (c.step s).2

theorem position_le_step (c : Cursor) (s : Step) : c.position ≤ (c.step s).2.position := by
  cases s with
  | advance => exact Nat.le_add_right ..
  | consume | consumeWhile | nextToken => exact position_consume ▸ Nat.le_add_right ..

theorem position_le_run (c : Cursor) (ss : List Step) : c.position ≤ (c.run ss).2.position := by
  induction ss generalizing c with
  | nil => exact Nat.le_refl _
  | cons s ss ih => exact (c.position_le_step s).trans (ih _)

/-- Whatever steps a cursor takes, the tokens that it cuts are slices of its text. It stands where
the character begins to which the steps have counted, or at the end of the text, where it is
finished, and it never turns back. -/
theorem slicedFrom_run_ofString (source : String) (steps : List Step) :
    let c := ((ofString source).run steps).2
    let index := (ofString source).distance steps
    (∀ t ∈ ((ofString source).run steps).1, t.SlicedFrom source) ∧
    c.position = byteOffset source index ∧ c.position ≤ source.utf8ByteSize ∧
    (c.finished ↔ source.length ≤ index) ∧ (c.finished ↔ c.position = source.utf8ByteSize) ∧
    ∀ more, c.position ≤ ((ofString source).run (steps ++ more)).2.position := by
  intro c index
  have h : c.After source (source.toList.take index) := by
    have hstart : (ofString source).After source (source.toList.take 0) := after_ofString source
    have hrun := hstart.run steps
    rwa [Nat.zero_add] at hrun
  refine ⟨(after_ofString source).slicedFrom_run, ?_, h.position_le, h.finished_iff_length_le,
    h.finished_iff, fun more => ?_⟩
  · rw [byteOffset_eq, h.position_eq]
  · rw [run_append]
    exact c.position_le_run more

example : ((ofString "é)").run [.consume .identifier 1 true, .consume .unrecognized 2 true,
    .nextToken]).1.map (fun t => (t.span, t.text)) =
      [(⟨0, 2⟩, some "é"), (⟨2, 3⟩, some ")"), (⟨3, 3⟩, some "")] := by
  decide

end Cursor

end Verbatim
