import Verbatim.Format
import Verbatim.Proofs.Lines.Physical
import Verbatim.Proofs.Listing.Unquote

/-! # Tokens from a listing

A listing has one line for each token, whatever characters the token has, and from the line one can
tell where the token stands, its kind and its source text. So tokens with the same listing agree in
all of this.
-/

namespace Verbatim

namespace Token

def Kind.ofName? (s : String) : Option Kind :=
  Kind.all.find? (·.name == s)

def listed (t : Token) : Position × Kind × String :=
  (t.position, t.kind, t.sourceText)

end Token

namespace Listing

open Text (digits? unquote)

def cut (mark : Char) (cs : List Char) : List Char × List Char :=
  (cs.takeWhile (· != mark), (cs.dropWhile (· != mark)).tail)

/-- Reads the line of a token, whose parts are set apart by a colon and two spaces. -/
def readLine (s : String) : Option (Position × Token.Kind × String) := do
  let (line, cs) := cut ':' s.toList
  let (column, cs) := cut ' ' cs
  let (name, cs) := cut ' ' cs
  let position : Position := ⟨← digits? 10 line, ← digits? 10 column⟩
  return (position, ← Token.Kind.ofName? (String.ofList name), ← unquote (String.ofList cs))

def read (s : String) : Option (List (Position × Token.Kind × String)) :=
  (Text.lines s).mapM readLine

section Line

variable {mark : Char} {front back : List Char}

theorem cut_append (h : mark ∉ front) : cut mark (front ++ mark :: back) = (front, back) := by
  have hfront : ∀ c ∈ front, (c != mark) = true := by
    rintro c hc
    apply bne_iff_ne.mpr
    rintro rfl
    exact h hc
  unfold cut
  rw [List.takeWhile_append_of_pos hfront, List.dropWhile_append_of_pos hfront]
  simp

theorem not_mem_toDigits {c : Char} (hc : ¬ c.isDigit) (n : Nat) : c ∉ Nat.toDigits 10 n :=
  fun hm => hc (Nat.isDigit_of_mem_toDigits (by omega) (Nat.le_refl 10) hm)

theorem not_mem_name (kind : Token.Kind) : ' ' ∉ kind.name.toList ∧ '\n' ∉ kind.name.toList := by
  cases kind <;> decide

theorem ofName?_name (kind : Token.Kind) : Token.Kind.ofName? kind.name = some kind := by
  cases kind <;> rfl

theorem toList_describe (t : Token) : t.describe.toList =
    Nat.toDigits 10 t.line ++ ':' :: (Nat.toDigits 10 t.column ++ ' ' ::
      (t.kind.name.toList ++ ' ' :: (Text.quoted t.sourceText).toList)) := by
  simp [Token.describe, Token.position, Position.text]

theorem readLine_describe (t : Token) : readLine t.describe = some t.listed := by
  have hdigits (n : Nat) : digits? 10 (Nat.toDigits 10 n) = some n :=
    Text.digits?_toDigits (by omega) (by omega) n
  unfold readLine
  rw [toList_describe, cut_append (not_mem_toDigits (by decide) _)]
  dsimp only
  rw [cut_append (not_mem_toDigits (by decide) _)]
  dsimp only
  rw [cut_append (not_mem_name t.kind).1]
  simp only [hdigits, String.ofList_toList, ofName?_name, Text.unquote_quoted]
  rfl

theorem not_mem_describe (t : Token) : '\n' ∉ t.describe.toList := by
  have hnum (n : Nat) : '\n' ∉ Nat.toDigits 10 n := not_mem_toDigits (by decide) n
  rw [toList_describe]
  simp [hnum, (not_mem_name t.kind).2, Text.not_mem_quoted]

end Line

section Lines

theorem intercalate_describe (ts : List Token) :
    "\n".intercalate (ts.map Token.describe ++ [""]) = listing ts := by
  induction ts with
  | nil => simp [listing]
  | cons t ts ih =>
    rw [List.map_cons, List.cons_append, String.intercalate_cons_of_ne_nil (by simp), ih]
    rfl

theorem parts_listing (ts : List Token) :
    Text.parts (listing ts) = ts.map Token.describe ++ [""] := by
  rw [← intercalate_describe]
  apply Text.parts_intercalate (by simp)
  rintro text ht
  rcases List.mem_append.mp ht with ht | ht
  · obtain ⟨t, -, rfl⟩ := List.mem_map.mp ht
    exact not_mem_describe t
  · obtain rfl := List.mem_singleton.mp ht
    decide

theorem lines_listing (ts : List Token) : Text.lines (listing ts) = ts.map Token.describe := by
  unfold Text.lines
  rw [parts_listing, if_pos List.getLast?_concat, List.dropLast_concat]

theorem count_listing (ts : List Token) : (listing ts).toList.count '\n' = ts.length := by
  have hlen := Text.length_parts (listing ts)
  rw [parts_listing, List.length_append, List.length_map, List.length_singleton] at hlen
  omega

theorem read_listing (ts : List Token) : read (listing ts) = some (ts.map Token.listed) := by
  unfold read
  rw [lines_listing]
  induction ts with
  | nil => rfl
  | cons t ts ih =>
    rw [List.map_cons, List.mapM_cons, readLine_describe, ih]
    rfl

variable {ts us : List Token}

theorem listing_congr (h : List.Forall₂ (fun t u => t.listed = u.listed) ts us) :
    listing ts = listing us := by
  induction h with
  | nil => rfl
  | @cons t u ts us htu _ ih =>
    obtain ⟨hposition, hkind, htext⟩ : t.position = u.position ∧ t.kind = u.kind ∧
        t.sourceText = u.sourceText := by simpa [Token.listed] using htu
    show t.describe ++ "\n" ++ listing ts = u.describe ++ "\n" ++ listing us
    rw [ih, Token.describe, Token.describe, hposition, hkind, htext]

theorem listing_eq_iff :
    listing ts = listing us ↔ List.Forall₂ (fun t u => t.listed = u.listed) ts us := by
  constructor
  · intro h
    have hlisted : ts.map Token.listed = us.map Token.listed := by
      apply Option.some.inj
      rw [← read_listing, h, read_listing]
    rwa [← List.forall₂_eq_eq_eq, List.forall₂_map_left_iff, List.forall₂_map_right_iff] at hlisted
  · exact listing_congr

end Lines

/-- A listing has one line for each token, from which the position, the kind and the source text of
the token are read. It is the same for tokens that agree in these, and for no others. -/
theorem listing_readable :
    (∀ ts : List Token, ∃ s, Format.text.renderTokens ts = .ok s ∧
      s.toList.count '\n' = ts.length ∧ Text.lines s = ts.map Token.describe ∧
      read s = some (ts.map Token.listed)) ∧
    ∀ ts us : List Token, Format.text.renderTokens ts = Format.text.renderTokens us ↔
      List.Forall₂ (fun t u => t.line = u.line ∧ t.column = u.column ∧ t.kind = u.kind ∧
        t.sourceText = u.sourceText) ts us := by
  constructor
  · intro ts
    exact ⟨listing ts, rfl, count_listing ts, lines_listing ts, read_listing ts⟩
  · intro ts us
    have hrender : Format.text.renderTokens ts = Format.text.renderTokens us ↔
        listing ts = listing us := by
      constructor
      · exact Except.ok.inj
      · exact congrArg Except.ok
    have hlisted (t u : Token) : t.listed = u.listed ↔ t.line = u.line ∧ t.column = u.column ∧
        t.kind = u.kind ∧ t.sourceText = u.sourceText := by
      simp [Token.listed, Token.position, and_assoc]
    rw [hrender, listing_eq_iff]
    simp only [hlisted]

example : readLine "2:17 squoted_str \"'\\\"\\n\\\\\\u\x7b300\x7d'\"" =
    some (⟨2, 17⟩, .singleQuoted, "'\"\n\\\u0300'") := by
  decide +kernel

end Listing

end Verbatim
