import Verbatim.Datum.Json
import Mathlib.Tactic.Common

/-! # Reading JSON

A reader takes a JSON text one character after the other. It keeps the values read so far of every
list and record that is still open, so a bracket that closes tells which values belong together.
What it reads from written data is the data, but that a tagged value cannot be told from a record
with the tag as its only key.
-/

namespace Verbatim

mutual

def Datum.plain : Datum → Datum
  | .number n => .number n
  | .text s => .text s
  | .list ds => .list (Datum.plainItems ds)
  | .record fields => .record (Datum.plainFields fields)
  | .tagged tag d => .record [(tag, d.plain)]

def Datum.plainItems : List Datum → List Datum
  | [] => []
  | d :: ds => d.plain :: Datum.plainItems ds

def Datum.plainFields : List (String × Datum) → List (String × Datum)
  | [] => []
  | (k, d) :: fields => (k, d.plain) :: Datum.plainFields fields

end

namespace Json

/-- What a reader is within. -/
inductive Mode where
  | plain
  | number
  | quoted
  | escaped
  | unicode (left code : Nat)

/-- The values read so far of each list and record that is open, keys included. The innermost comes
first, and in each the last value. -/
abbrev Levels := List (List Datum)

namespace Levels

def push (d : Datum) : Levels → Levels
  | [] => []
  | ds :: l => (d :: ds) :: l

def change (f : Datum → Datum) : Levels → Levels
  | (d :: ds) :: l => (f d :: ds) :: l
  | l => l

def close (f : List Datum → Datum) : Levels → Levels
  | [] => []
  | ds :: l => push (f ds.reverse) l

end Levels

def addDigit (c : Char) : Datum → Datum
  | .number n => .number (10 * n + (c.toNat - '0'.toNat))
  | d => d

def addChar (c : Char) : Datum → Datum
  | .text s => .text (s.push c)
  | d => d

def pairs : List Datum → List (String × Datum)
  | .text k :: d :: ds => (k, d) :: pairs ds
  | _ => []

def keyed (fields : List (String × Datum)) : List Datum :=
  fields.flatMap fun f => [.text f.1, f.2]

def unescape : Char → Char
  | 'b' => '\x08'
  | 'f' => '\x0c'
  | 'n' => '\n'
  | 'r' => '\r'
  | 't' => '\t'
  | c => c

def hexValue (c : Char) : Nat :=
  if c.isDigit then c.toNat - '0'.toNat else c.toNat - 'a'.toNat + 10

def stepPlain (l : Levels) (c : Char) : Mode × Levels :=
  if c = '\x22' then (.quoted, l.push (.text ""))
  else if c = '[' ∨ c = '\x7b' then (.plain, [] :: l)
  else if c = ']' then (.plain, l.close .list)
  else if c = '\x7d' then (.plain, l.close fun ds => .record (pairs ds))
  else if c.isDigit then (.number, l.push (.number (c.toNat - '0'.toNat)))
  else (.plain, l)

def step (l : Levels) (c : Char) : Mode → Mode × Levels
  | .plain => stepPlain l c
  | .number => if c.isDigit then (.number, l.change (addDigit c)) else stepPlain l c
  | .quoted =>
    if c = '\x22' then (.plain, l)
    else if c = '\x5c' then (.escaped, l)
    else (.quoted, l.change (addChar c))
  | .escaped =>
    if c = 'u' then (.unicode 4 0, l) else (.quoted, l.change (addChar (unescape c)))
  | .unicode left code =>
    let code := 16 * code + hexValue c
    if left ≤ 1 then (.quoted, l.change (addChar (Char.ofNat code)))
    else (.unicode (left - 1) code, l)

def run (mode : Mode) (l : Levels) : List Char → Levels
  | [] => l
  | c :: cs => run (step l c mode).1 (step l c mode).2 cs

/-- The value that a text holds. -/
def read (s : String) : Option Datum :=
  match run .plain [[]] s.toList with
  | [[d]] => some d
  | _ => none

def Ends (rest : List Char) : Prop :=
  ∀ c ∈ rest.head?, ¬ c.isDigit

variable {l : Levels} {rest : List Char}

section Levels

theorem change_push (f : Datum → Datum) (d : Datum) (l : Levels) :
    (l.push d).change f = l.push (f d) := by
  cases l <;> rfl

theorem pairs_keyed (fields : List (String × Datum)) : pairs (keyed fields) = fields := by
  induction fields with
  | nil => rfl
  | cons f fields ih => exact congrArg ((f.1, f.2) :: ·) ih

end Levels

section Scalars

theorem run_number (h : Ends rest) : run .number l rest = run .plain l rest := by
  cases rest with
  | nil => rfl
  | cons c rest =>
    have hc : ¬ c.isDigit := h c rfl
    simp only [run, step, if_neg hc]

theorem run_digits {ds : List Char} (hds : ∀ c ∈ ds, c.isDigit) (h : Ends rest) (n : Nat) :
    run .number (l.push (.number n)) (ds ++ rest) =
      run .plain (l.push (.number (Nat.ofDigitChars 10 ds n))) rest := by
  induction ds generalizing n with
  | nil => exact run_number h
  | cons c ds ih =>
    obtain ⟨hc, hds⟩ := List.forall_mem_cons.mp hds
    rw [List.cons_append, run, step, if_pos hc, change_push, Nat.ofDigitChars_cons]
    exact ih hds _

theorem stepPlain_of_isDigit {c : Char} (hc : c.isDigit) :
    stepPlain l c = (.number, l.push (.number (c.toNat - '0'.toNat))) := by
  have hne : ∀ d : Char, ¬ d.isDigit → c ≠ d := by
    rintro d hd rfl
    exact hd hc
  rw [stepPlain, if_neg (hne _ (by decide)), if_neg, if_neg (hne _ (by decide)),
    if_neg (hne _ (by decide)), if_pos hc]
  rintro (he | he)
  exacts [hne _ (by decide) he, hne _ (by decide) he]

theorem run_toDigits (h : Ends rest) (n : Nat) :
    run .plain l (Nat.toDigits 10 n ++ rest) = run .plain (l.push (.number n)) rest := by
  have hds : ∀ c ∈ Nat.toDigits 10 n, c.isDigit := fun c hc =>
    Nat.isDigit_of_mem_toDigits (by omega) (by omega) hc
  obtain ⟨c, ds, he⟩ := List.exists_cons_of_ne_nil (@Nat.toDigits_ne_nil n 10)
  have hn : Nat.ofDigitChars 10 (c :: ds) 0 = n := by rw [← he, Nat.ofDigitChars_ten_toDigits]
  rw [he] at hds ⊢
  obtain ⟨hc, hds⟩ := List.forall_mem_cons.mp hds
  rw [List.cons_append, run, step, stepPlain_of_isDigit hc, run_digits hds h]
  rw [Nat.ofDigitChars_cons, Nat.mul_zero, Nat.zero_add] at hn
  rw [hn]

theorem hexPadded_of_lt : ∀ n < 0x20,
    Text.hexPadded 4 n = ['0', '0', Nat.digitChar (n / 16), Nat.digitChar (n % 16)] ∧
      16 * hexValue (Nat.digitChar (n / 16)) + hexValue (Nat.digitChar (n % 16)) = n := by
  decide

theorem run_hexPadded {n : Nat} (hn : n < 0x20) :
    run (.unicode 4 0) l (Text.hexPadded 4 n ++ rest) =
      run .quoted (l.change (addChar (Char.ofNat n))) rest := by
  obtain ⟨hdigits, hvalue⟩ := hexPadded_of_lt n hn
  have hzero : hexValue '0' = 0 := by decide
  rw [hdigits]
  simp only [List.cons_append, List.nil_append, run, step, Nat.reduceLeDiff, reduceIte,
    Nat.reduceSub, hzero, Nat.mul_zero, Nat.add_zero, Nat.zero_add, hvalue]

theorem run_escape (c : Char) (s : String) :
    run .quoted (l.push (.text s)) (escape c ++ rest) =
      run .quoted (l.push (.text (s.push c))) rest := by
  have hchange : (l.push (.text s)).change (addChar c) = l.push (.text (s.push c)) :=
    change_push (addChar c) (.text s) l
  rw [← hchange]
  unfold escape
  split
  case h_8 hquote hslash _ _ _ _ _ =>
    split
    case isTrue hc =>
      have hcode := @run_hexPadded (l.push (.text s)) rest _ hc
      rw [Char.ofNat_toNat] at hcode
      rw [List.append_assoc]
      exact hcode
    case isFalse =>
      rw [List.singleton_append, run, step, if_neg hquote, if_neg hslash]
  all_goals rfl

theorem run_flatMap_escape (cs : List Char) (s : String) :
    run .quoted (l.push (.text s)) (cs.flatMap escape ++ rest) =
      run .quoted (l.push (.text (s ++ String.ofList cs))) rest := by
  induction cs generalizing s with
  | nil => simp
  | cons c cs ih =>
    rw [List.flatMap_cons, List.append_assoc, run_escape, ih, String.ofList_cons,
      ← String.append_assoc, String.append_singleton]

theorem run_string (s : String) :
    run .plain l (string s ++ rest) = run .plain (l.push (.text s)) rest := by
  have hquoted := @run_flatMap_escape l ('\x22' :: rest) s.toList ""
  rw [String.empty_append, String.ofList_toList] at hquoted
  rw [string, List.cons_append, List.append_assoc]
  exact hquoted

end Scalars

section Values

theorem run_margin (level : Nat) : run .plain l (margin level ++ rest) = run .plain l rest := by
  have hblanks : ∀ n, run .plain l (List.replicate n ' ' ++ rest) = run .plain l rest := by
    intro n
    induction n with
    | zero => rfl
    | succ n ih => exact ih
  exact hblanks (2 * level)

theorem run_key (k : String) :
    run .plain l (key k ++ rest) = run .plain (l.push (.text k)) rest := by
  rw [key, List.append_assoc, run_string]
  rfl

theorem ends_cons {c : Char} (hc : ¬ c.isDigit) : Ends (c :: rest) := by
  intro d hd
  obtain rfl : c = d := by simpa using hd
  exact hc

theorem ends_margin (level : Nat) : Ends (margin level ++ rest) :=
  ends_cons (by decide)

theorem ends_items (h : Ends rest) (level : Nat) : ∀ ds, Ends (items level ds ++ rest)
  | [] => h
  | _ :: _ => ends_cons (by decide)

theorem ends_entries (h : Ends rest) (level : Nat) : ∀ fields, Ends (entries level fields ++ rest)
  | [] => h
  | _ :: _ => ends_cons (by decide)

theorem run_list : run .plain l ('[' :: rest) = run .plain ([] :: l) rest := rfl

theorem run_list_end (ds : List Datum) : run .plain (ds :: l) (']' :: rest) =
    run .plain (l.push (.list ds.reverse)) rest := rfl

theorem run_record : run .plain l ('\x7b' :: rest) = run .plain ([] :: l) rest := rfl

theorem run_record_end (ds : List Datum) : run .plain (ds :: l) ('\x7d' :: rest) =
    run .plain (l.push (.record (pairs ds.reverse))) rest := rfl

theorem run_comma : run .plain l (',' :: rest) = run .plain l rest := rfl

mutual

/-- From the text of a value, and what ends it, the value is read. -/
theorem run_value : ∀ (d : Datum) (level : Nat) (l : Levels) {rest : List Char}, Ends rest →
    run .plain l (value level d ++ rest) = run .plain (l.push d.plain) rest
  | .number n, _, _, _, h => run_toDigits h n
  | .text s, _, _, _, _ => run_string s
  | .list [], _, _, _, _ => rfl
  | .list (d :: ds), level, l, rest, h => by
    have hend : Ends (margin level ++ ']' :: rest) := ends_margin level
    have hd := run_value d (level + 1) ([] :: l) (ends_items hend (level + 1) ds)
    have hds := run_items ds (level + 1) [d.plain] l hend
    simp only [value, List.cons_append, List.append_assoc, List.nil_append]
    rw [run_list, run_margin, hd, Levels.push, hds, run_margin, run_list_end]
    simp [Datum.plain, Datum.plainItems]
  | .record [], _, _, _, _ => rfl
  | .record ((k, d) :: fields), level, l, rest, h => by
    have hend : Ends (margin level ++ '\x7d' :: rest) := ends_margin level
    have hd := run_value d (level + 1) ([.text k] :: l) (ends_entries hend (level + 1) fields)
    have hfields := run_entries fields (level + 1) [d.plain, .text k] l hend
    simp only [value, List.cons_append, List.append_assoc, List.nil_append]
    rw [run_record, run_margin, run_key, Levels.push, hd, Levels.push, hfields, run_margin,
      run_record_end]
    simp [Datum.plain, Datum.plainFields, pairs, pairs_keyed]
  | .tagged tag d, level, l, rest, h => by
    have hend : Ends (margin level ++ '\x7d' :: rest) := ends_margin level
    have hd := run_value d (level + 1) ([.text tag] :: l) hend
    simp only [value, List.cons_append, List.append_assoc, List.nil_append]
    rw [run_record, run_margin, run_key, Levels.push, hd, Levels.push, run_margin, run_record_end]
    rfl

theorem run_items : ∀ (ds : List Datum) (level : Nat) (xs : List Datum) (l : Levels)
    {rest : List Char}, Ends rest → run .plain (xs :: l) (items level ds ++ rest) =
      run .plain (((Datum.plainItems ds).reverse ++ xs) :: l) rest
  | [], _, _, _, _, _ => rfl
  | d :: ds, level, xs, l, rest, h => by
    have hd := run_value d level (xs :: l) (ends_items h level ds)
    have hds := run_items ds level (d.plain :: xs) l h
    simp only [items, List.cons_append, List.append_assoc]
    rw [run_comma, run_margin, hd, Levels.push, hds]
    simp [Datum.plainItems]

theorem run_entries : ∀ (fields : List (String × Datum)) (level : Nat) (xs : List Datum)
    (l : Levels) {rest : List Char}, Ends rest →
    run .plain (xs :: l) (entries level fields ++ rest) =
      run .plain (((keyed (Datum.plainFields fields)).reverse ++ xs) :: l) rest
  | [], _, _, _, _, _ => rfl
  | (k, d) :: fields, level, xs, l, rest, h => by
    have hd := run_value d level ((.text k :: xs) :: l) (ends_entries h level fields)
    have hfields := run_entries fields level (d.plain :: .text k :: xs) l h
    simp only [entries, List.cons_append, List.append_assoc]
    rw [run_comma, run_margin, run_key, Levels.push, hd, Levels.push, hfields]
    simp [Datum.plainFields, keyed]

end

theorem read_document (d : Datum) : read (document d) = some d.plain := by
  have hend : Ends ['\n'] := ends_cons (by decide)
  have hd : run .plain [[]] (value 0 d ++ ['\n']) = [[d.plain]] := run_value d 0 [[]] hend
  rw [read, document, String.toList_ofList, hd]

end Values

end Json

end Verbatim
