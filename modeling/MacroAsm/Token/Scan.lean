import MacroAsm.Token
import MacroAsm.Word

/-!
# MacroAsm.Token.Scan

Cutting a source text into tokens.  `cut` takes one slice off the front of a
text: a single blank, or a whole lexeme.  `scanFrom` cuts until the text is used
up or a character fits nowhere, and notes where every lexeme starts.  The slices
cover the text without gaps (`cut_eq`), and each takes at least one character
(`length_rest_lt_of_cut`), which is why scanning ends.
-/

namespace MacroAsm

/-- Why a character cannot start a lexeme. -/
inductive Foreign where
  | bareBang
  | character (c : Char)
deriving DecidableEq, Repr

namespace Token

/-- A slice off the front of a text: what it means, nothing if it is blank, the
characters it covers and those that follow. -/
structure Slice where
  lexeme : Option Lexeme
  text : List Char
  rest : List Char
deriving DecidableEq, Repr

/-- Blanks separate tokens and mean nothing else.  The carriage return is one, so
that lines may end in CR LF. -/
def isBlank (c : Char) : Bool := c == ' ' || c == '\t' || c == '\r'

/-- A line without the carriage returns at its end. -/
def dropReturns (line : List Char) : List Char :=
  (line.reverse.dropWhile (· == '\r')).reverse

/-- The mark that a single character is. -/
def mark? (c : Char) : Option Mark :=
  match c with
  | '(' => some .openParen
  | ')' => some .closeParen
  | ',' => some .comma
  | '=' => some .equals
  | '\x7b' => some .openBrace
  | '\x7d' => some .closeBrace
  | _ => none

/-- Cut one slice off a text that starts with `c`. -/
def cut (c : Char) (cs : List Char) : Except Foreign Slice :=
  if isBlank c then .ok ⟨none, [c], cs⟩
  else if c = '\n' then .ok ⟨some .newline, [c], cs⟩
  else if c = '#' then
    let body := cs.takeWhile (· != '\n')
    let text := String.ofList (dropReturns body)
    .ok ⟨some (.comment text), c :: body, cs.dropWhile (· != '\n')⟩
  else if Word.isChar c then
    let word := c :: cs.takeWhile Word.isChar
    .ok ⟨some (.word (String.ofList word)), word, cs.dropWhile Word.isChar⟩
  else if c = '!' then
    match cs with
    | '(' :: rest => .ok ⟨some (.mark .callOpen Mark.callOpen.spelling), ['!', '('], rest⟩
    | _ => .error .bareBang
  else
    match mark? c with
    | some m => .ok ⟨some (.mark m m.spelling), [c], cs⟩
    | none => .error (.character c)

/-- A slice and what follows it make up the text. -/
theorem cut_eq {c : Char} {cs : List Char} {s : Slice} (h : cut c cs = .ok s) :
    s.text ++ s.rest = c :: cs := by
  unfold cut at h
  split at h
  · cases h; rfl
  split at h
  · cases h; rfl
  split at h
  · cases h; simp [List.takeWhile_append_dropWhile]
  split at h
  · cases h; simp [List.takeWhile_append_dropWhile]
  split at h
  · rename_i hc
    split at h
    · cases h; simp [hc]
    · cases h
  · split at h
    · cases h; rfl
    · cases h

/-- A slice is never empty. -/
theorem text_ne_nil_of_cut {c : Char} {cs : List Char} {s : Slice} (h : cut c cs = .ok s) :
    s.text ≠ [] := by
  unfold cut at h
  repeat' split at h
  all_goals cases h
  all_goals simp

/-- What follows a slice is shorter than the text. -/
theorem length_rest_lt_of_cut {c : Char} {cs : List Char} {s : Slice} (h : cut c cs = .ok s) :
    s.rest.length < (c :: cs).length := by
  rw [← cut_eq h, List.length_append]
  have := List.length_pos_iff.mpr (text_ne_nil_of_cut h)
  omega

/-- What scanning gives: the tokens up to the end of the text, or up to the first
character that fits nowhere, with its place. -/
structure Scan where
  tokens : List Token
  stop : Option (Location × Foreign)
deriving DecidableEq, Repr

/-- Put the lexeme of a slice, if it has one, in front of a scan. -/
def Scan.push (here : Location) (lexeme : Option Lexeme) (scan : Scan) : Scan :=
  match lexeme with
  | none => scan
  | some l => { scan with tokens := ⟨l, here⟩ :: scan.tokens }

/-- Scan a text whose first character is at `here`. -/
def scanFrom (here : Location) (text : List Char) : Scan :=
  match text with
  | [] => ⟨[⟨.endOfInput, here⟩], none⟩
  | c :: cs =>
    match _h : cut c cs with
    | .error foreign => ⟨[], some (here, foreign)⟩
    | .ok slice => (scanFrom (here.advance slice.text) slice.rest).push here slice.lexeme
termination_by text.length
decreasing_by exact length_rest_lt_of_cut (by assumption)

/-- Scan a whole source text. -/
def scan (file source : String) : Scan :=
  scanFrom (.start file) source.toList

end Token

end MacroAsm
