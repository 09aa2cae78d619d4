import Verbatim.Lexeme.Reader
import Mathlib.Tactic.Common

/-! # Readers as queues

A reader keeps one token at hand and a cursor behind it. It answers as a queue of all tokens of the
text does: together, the token at hand and those that the cursor has still to cut are the queue.
-/

namespace Verbatim

theorem Cursor.finished_iff (c : Cursor) : c.finished ↔ c.tokens = [] := by
  constructor
  · exact c.tokens_of_finished
  · intro h
    by_contra hf
    rw [c.tokens_of_not_finished hf] at h
    cases h

namespace Reader

inductive Call where
  | peek
  | consume
  | next
  /-- All the items that are left. -/
  | drain
  deriving DecidableEq, Repr

inductive Answer where
  | shown (t : Option Token)
  | handed (t : Option Token)
  | drained (ts : List Token)
  deriving DecidableEq, Repr

def Answer.tokens : Answer → List Token
  | shown _ => []
  | handed t => t.toList
  | drained ts => ts

def handedOut (answers : List Answer) : List Token :=
  answers.flatMap Answer.tokens

def Call.nothing : Call → Answer
  | peek => .shown none
  | consume | next => .handed none
  | drain => .drained []

def answer (r : Reader) : Call → Answer × Reader
  | .peek => (.shown r.peek, r)
  | .consume | .next => (.handed r.consume.1, r.consume.2)
  | .drain => (.drained r.drain.1, r.drain.2)

def queueAnswer (ts : List Token) : Call → Answer × List Token
  | .peek => (.shown ts.head?, ts)
  | .consume | .next => (.handed ts.head?, ts.tail)
  | .drain => (.drained ts, [])

def run {σ : Type} (answer : σ → Call → Answer × σ) (s : σ) : List Call → List Answer × σ
  | [] => ([], s)
  | call :: calls =>
    let (a, s') := answer s call
    let (as, s'') := run answer s' calls
    (a :: as, s'')

/-- The tokens `ts` are left to hand out. -/
structure Holds (r : Reader) (ts : List Token) : Prop where
  next_eq : r.next = ts.head?
  tokens_eq : r.cursor.tokens = ts.tail

theorem holds_ofCursor (c : Cursor) : (ofCursor c).Holds c.tokens := by
  unfold ofCursor
  by_cases hf : c.finished
  · rw [if_pos hf, c.tokens_of_finished hf]
    exact ⟨rfl, c.tokens_of_finished hf⟩
  · rw [if_neg hf, c.tokens_of_not_finished hf]
    exact ⟨rfl, rfl⟩

theorem holds_ofString (source : String) : (ofString source).Holds (tokenize source) :=
  holds_ofCursor (Cursor.ofString source)

namespace Holds

variable {r : Reader} {ts : List Token}

theorem finished_iff (h : r.Holds ts) : r.finished ↔ ts = [] := by
  unfold finished
  rw [h.next_eq]
  cases ts <;> simp

theorem consume (h : r.Holds ts) : r.consume.2.Holds ts.tail := by
  rw [← h.tokens_eq]
  exact holds_ofCursor r.cursor

theorem consume_eq (h : r.Holds []) : r.consume = (none, r) := by
  have hf : r.cursor.finished := r.cursor.finished_iff.mpr h.tokens_eq
  have hn : r.next = none := h.next_eq
  unfold Reader.consume ofCursor
  rw [if_pos hf, hn, ← hn]

theorem drain (h : r.Holds ts) : r.drain.1 = ts ∧ r.drain.2.Holds [] := by
  induction ts generalizing r with
  | nil =>
    rw [Reader.drain, if_pos (h.finished_iff.mpr rfl)]
    exact ⟨rfl, h⟩
  | cons t ts ih =>
    have hf : ¬ r.finished := fun hf => List.cons_ne_nil t ts (h.finished_iff.mp hf)
    obtain ⟨htokens, hrest⟩ := ih h.consume
    rw [Reader.drain, if_neg hf]
    constructor
    · dsimp only
      rw [htokens, h.next_eq]
      rfl
    · exact hrest

theorem answer (h : r.Holds ts) (call : Call) :
    (r.answer call).1 = (queueAnswer ts call).1 ∧
      (r.answer call).2.Holds (queueAnswer ts call).2 := by
  cases call with
  | peek => exact ⟨congrArg Answer.shown h.next_eq, h⟩
  | consume | next => exact ⟨congrArg Answer.handed h.next_eq, h.consume⟩
  | drain => exact ⟨congrArg Answer.drained h.drain.1, h.drain.2⟩

theorem run (h : r.Holds ts) (calls : List Call) :
    (Reader.run Reader.answer r calls).1 = (Reader.run queueAnswer ts calls).1 ∧
      (Reader.run Reader.answer r calls).2.Holds (Reader.run queueAnswer ts calls).2 := by
  induction calls generalizing r ts with
  | nil => exact ⟨rfl, h⟩
  | cons call calls ih =>
    obtain ⟨hanswer, hleft⟩ := h.answer call
    obtain ⟨hanswers, hend⟩ := ih hleft
    unfold Reader.run
    dsimp only
    rw [hanswer, hanswers]
    exact ⟨rfl, hend⟩

theorem run_nil (h : r.Holds []) (calls : List Call) :
    Reader.run Reader.answer r calls = (calls.map Call.nothing, r) := by
  have hdrain : r.drain = ([], r) := by
    rw [Reader.drain, if_pos (h.finished_iff.mpr rfl)]
  have hanswer (call : Call) : r.answer call = (call.nothing, r) := by
    cases call with
    | peek => exact congrArg (fun t => (Answer.shown t, r)) h.next_eq
    | consume | next => rw [Reader.answer, h.consume_eq]; rfl
    | drain => rw [Reader.answer, hdrain]; rfl
  induction calls with
  | nil => rfl
  | cons call calls ih =>
    unfold Reader.run
    rw [hanswer]
    dsimp only
    rw [ih]
    rfl

end Holds

theorem handedOut_run_queueAnswer (ts : List Token) (calls : List Call) :
    handedOut (run queueAnswer ts calls).1 ++ (run queueAnswer ts calls).2 = ts := by
  induction calls generalizing ts with
  | nil => rfl
  | cons call calls ih =>
    have hcall : (queueAnswer ts call).1.tokens ++ (queueAnswer ts call).2 = ts := by
      cases call <;> cases ts <;> simp [queueAnswer, Answer.tokens]
    unfold run
    dsimp only
    rw [handedOut, List.flatMap_cons, List.append_assoc]
    exact (congrArg _ (ih _)).trans hcall

/-- Whatever a reader is asked for and in which order, it answers as the queue of the tokens of its
text: it has handed out the first of them, shows the one that it hands out next and is not changed
by that, and is finished when it has handed out all. From then on it stays as it is. -/
theorem run_ofString (source : String) (calls : List Call) :
    let answers := (run answer (ofString source) calls).1
    let r := (run answer (ofString source) calls).2
    answers = (run queueAnswer (tokenize source) calls).1 ∧
      handedOut answers <+: tokenize source ∧
      r.peek = (tokenize source)[(handedOut answers).length]? ∧ r.consume.1 = r.peek ∧
      (∀ more, run answer r (.peek :: more) =
        (.shown r.peek :: (run answer r more).1, (run answer r more).2)) ∧
      (r.finished ↔ handedOut answers = tokenize source) ∧
      (r.finished → ∀ more, run answer r more = (more.map Call.nothing, r)) := by
  intro answers r
  obtain ⟨hanswers, hleft⟩ := (holds_ofString source).run calls
  have hqueue := handedOut_run_queueAnswer (tokenize source) calls
  generalize (run queueAnswer (tokenize source) calls).2 = rest at hleft hqueue
  rw [← hanswers] at hqueue
  refine ⟨hanswers, ⟨rest, hqueue⟩, ?_, rfl, fun _ => rfl, ?_, ?_⟩
  · have hnext : r.peek = rest.head? := hleft.next_eq
    rw [hnext, ← hqueue, List.getElem?_append_right (Nat.le_refl _), Nat.sub_self,
      List.head?_eq_getElem?]
  · rw [hleft.finished_iff, ← hqueue, List.self_eq_append_right]
  · rintro hf more
    obtain rfl := hleft.finished_iff.mp hf
    exact hleft.run_nil more

/-- Looking twice, taking a token in both ways and then the others, and asking on at the end. -/
theorem run_ofString_drained :
    let calls : List Call := [.peek, .next, .peek, .peek, .consume, .drain, .peek]
    let r := (run answer (ofString "é (b\n") calls).2
    r.finished ∧ handedOut (run answer (ofString "é (b\n") calls).1 = tokenize "é (b\n" ∧
      run answer r [.next, .peek, .drain, .consume] =
        ([.handed none, .shown none, .drained [], .handed none], r) := by
  intro calls r
  obtain ⟨-, -, -, -, -, hfinished, hend⟩ := run_ofString "é (b\n" calls
  have hr : r.finished := by decide +kernel
  exact ⟨hr, hfinished.mp hr, hend hr [.next, .peek, .drain, .consume]⟩

end Reader

end Verbatim
