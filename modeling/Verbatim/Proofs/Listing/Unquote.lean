import Verbatim.Text.Digits
import Verbatim.Text.Quoted
import Mathlib.Tactic.Common

/-! # Reading quoted text

Between its quotes a text is written one character after the other, each as itself or as an escape
that begins with a backslash. A reader that minds what it is within gets the text back, whatever its
characters are, and meets no end of line on its way.
-/

namespace Verbatim.Text

section Digits

variable {base : Nat}

theorem digitValue_digitChar : ∀ d < 16, digitValue (Nat.digitChar d) = d := by
  decide

theorem digits_toDigits (hb : 1 < base) (hle : base ≤ 16) (n : Nat) :
    (∀ c ∈ Nat.toDigits base n, digitValue c < base) ∧
      (Nat.toDigits base n).foldl (fun m c => base * m + digitValue c) 0 = n := by
  induction n using Nat.strongRecOn with
  | ind n ih =>
    rcases Nat.lt_or_ge n base with hlt | hge
    · have hd := digitValue_digitChar n (by omega)
      rw [Nat.toDigits_of_lt_base hlt]
      simp [hd, hlt]
    · obtain ⟨hall, hvalue⟩ := ih (n / base) (Nat.div_lt_self (by omega) hb)
      have hmod : n % base < base := Nat.mod_lt n (by omega)
      have hd := digitValue_digitChar (n % base) (by omega)
      rw [Nat.toDigits_of_base_le hb hge]
      constructor
      · rintro c hc
        rcases List.mem_append.mp hc with hc | hc
        · exact hall c hc
        · obtain rfl := List.mem_singleton.mp hc
          rwa [hd]
      · rw [List.foldl_append, hvalue, List.foldl_cons, List.foldl_nil, hd, Nat.div_add_mod]

theorem digits?_toDigits (hb : 1 < base) (hle : base ≤ 16) (n : Nat) :
    digits? base (Nat.toDigits base n) = some n := by
  obtain ⟨hall, hvalue⟩ := digits_toDigits hb hle n
  have hne : (Nat.toDigits base n).isEmpty = false := by simp [Nat.toDigits_ne_nil]
  unfold digits?
  rw [if_pos (by simpa [hne] using hall), hvalue]

end Digits

inductive Within where
  | plain
  | escape
  | code (value : Nat)

def unescape : Char → Char
  | '0' => '\x00'
  | 't' => '\t'
  | 'r' => '\r'
  | 'n' => '\n'
  | c => c

/-- The characters up to the closing quote, behind which there may be nothing. -/
def readQuoted : Within → List Char → Option (List Char)
  | _, [] => none
  | .plain, c :: cs =>
    if c = '\x22' then if cs.isEmpty then some [] else none
    else if c = '\x5c' then readQuoted .escape cs
    else (readQuoted .plain cs).map (c :: ·)
  | .escape, c :: cs =>
    if c = 'u' then readQuoted (.code 0) cs else (readQuoted .plain cs).map (unescape c :: ·)
  | .code value, c :: cs =>
    if c = '\x7b' then readQuoted (.code value) cs
    else if c = '\x7d' then (readQuoted .plain cs).map (Char.ofNat value :: ·)
    else readQuoted (.code (16 * value + digitValue c)) cs

def unquote (s : String) : Option String :=
  match s.toList with
  | '\x22' :: cs => (readQuoted .plain cs).map String.ofList
  | _ => none

variable {rest : List Char}

theorem readQuoted_digits {ds : List Char} (h : ∀ c ∈ ds, digitValue c < 16) (value : Nat) :
    readQuoted (.code value) (ds ++ '\x7d' :: rest) = (readQuoted .plain rest).map
      (Char.ofNat (ds.foldl (fun m c => 16 * m + digitValue c) value) :: ·) := by
  induction ds generalizing value with
  | nil => rfl
  | cons c ds ih =>
    obtain ⟨hc, hds⟩ := List.forall_mem_cons.mp h
    have hne {d : Char} (hd : ¬ digitValue d < 16) : c ≠ d := by
      rintro rfl
      exact hd hc
    rw [List.cons_append, readQuoted, if_neg (hne (by decide)), if_neg (hne (by decide)), ih hds,
      List.foldl_cons]

theorem readQuoted_escape (c : Char) :
    readQuoted .plain (escape c ++ rest) = (readQuoted .plain rest).map (c :: ·) := by
  unfold escape
  split
  case h_7 hquote hslash =>
    split
    case isTrue =>
      rw [List.singleton_append, readQuoted, if_neg hquote, if_neg hslash]
    case isFalse =>
      obtain ⟨hall, hvalue⟩ := digits_toDigits (by decide : 1 < 16) (by decide) c.toNat
      have hdigits := @readQuoted_digits rest _ hall 0
      rw [hvalue, Char.ofNat_toNat] at hdigits
      rw [List.append_assoc, List.append_assoc]
      exact hdigits
  all_goals rfl

theorem readQuoted_flatMap_escape (cs : List Char) :
    readQuoted .plain (cs.flatMap escape ++ ['\x22']) = some cs := by
  induction cs with
  | nil => rfl
  | cons c cs ih =>
    rw [List.flatMap_cons, List.append_assoc, readQuoted_escape, ih, Option.map_some]

theorem unquote_quoted (s : String) : unquote (quoted s) = some s := by
  unfold unquote quoted
  rw [String.toList_ofList]
  show (readQuoted .plain (s.toList.flatMap escape ++ ['\x22'])).map String.ofList = some s
  rw [readQuoted_flatMap_escape, Option.map_some, String.ofList_toList]

theorem not_mem_escape (c : Char) : '\n' ∉ escape c := by
  unfold escape
  split
  case h_7 hline _ _ =>
    split
    case isTrue => simpa using Ne.symm hline
    case isFalse =>
      obtain ⟨hall, -⟩ := digits_toDigits (by decide : 1 < 16) (by decide) c.toNat
      have hdigits : '\n' ∉ hex c.toNat := fun hm => absurd (hall _ hm) (by decide)
      simpa using hdigits
  all_goals decide

theorem not_mem_quoted (s : String) : '\n' ∉ (quoted s).toList := by
  unfold quoted
  simp [not_mem_escape]

end Verbatim.Text
