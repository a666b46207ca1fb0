import MacroAsm.Proofs.Places

/-!
# MacroAsm.Proofs.Slices

Scanning loses nothing.  A text is laid out in pieces, one for each token: a gap of blanks, and
the slice that the token covers.

```text
source = gap slice  gap slice  ...  gap slice  gap rest
```

What remains behind the last gap is empty, and then the end of input stands there, or it starts
with a character that fits nowhere.

* `Piece.Stands` — what a slice has to do with its token, with the text before it and with the
  text after it;
* `Laid.cons` — one more piece in front of a text;
* `exists_laid` — every scan comes from such a layout, by going through the text slice by slice;
* `scan_lossless` — the same for a whole source.
-/

namespace MacroAsm

open Grammar

/-! ## The place behind a text -/

namespace Location

/-- The place behind a text: as many lines down as there are line feeds in it, and as many
columns to the right as there are characters after the last of them. -/
def behind (file : String) (text : List Char) : Location :=
  ⟨file, 1 + text.count '\n', 1 + (Source.lastLine text).length⟩

theorem start_advance_eq_behind (file : String) (text : List Char) :
    (start file).advance text = behind file text :=
  start_advance file text

theorem behind_advance (file : String) (before text : List Char) :
    (behind file before).advance text = behind file (before ++ text) := by
  simp only [← start_advance_eq_behind, advance_append]

end Location

namespace Token

/-! ## Where words begin -/

/-- A text goes on behind another one without prolonging a word of it. -/
def Loose (before text : List Char) : Prop :=
  ∀ c ∈ before.getLast?, WordChar c → ∀ d ∈ text.head?, ¬ WordChar d

/-- Blanks do not let a word go on. -/
theorem Loose.blanks {before blanks text : List Char} (h : Loose before (blanks ++ text))
    (hblanks : ∀ c ∈ blanks, isBlank c = true) : Loose (before ++ blanks) text := by
  cases blanks using List.reverseRecOn with
  | nil => simpa using h
  | append_singleton blanks b =>
      intro c hc hchar
      obtain rfl : b = c := by simpa using hc
      exact absurd hchar (not_wordChar_of_isBlank (hblanks b (by simp)))

/-- Nor does a slice that is covered by a lexeme: a word takes all its characters, and no other
lexeme ends in one, comments apart, which take the rest of the line. -/
theorem loose_of_covers {slice rest : List Char} {l : Lexeme} (h : l.Covers slice rest)
    (before : List Char) : Loose (before ++ slice) rest := by
  intro c hc hchar d hd
  rw [List.getLast?_append_of_ne_nil _ h.ne_nil] at hc
  cases l with
  | newline =>
      obtain rfl : slice = ['\n'] := h
      obtain rfl : '\n' = c := by simpa using hc
      exact absurd hchar (by decide)
  | endOfInput => cases h
  | word text => exact h.2.2 d hd
  | comment text =>
      obtain rfl := h.2.2 d hd
      decide
  | mark m text =>
      obtain ⟨rfl, rfl⟩ := h
      cases m
      all_goals
        obtain rfl := Option.some.inj hc
        exact absurd hchar (by decide)

/-! ## Pieces of a text -/

/-- A token, the characters that it covers, and the gap between them and the token before. -/
structure Piece where
  gap : List Char
  token : Token
  slice : List Char

namespace Piece

/-- The text that pieces make up. -/
def written (pieces : List Piece) : List Char := pieces.flatMap fun p => p.gap ++ p.slice

@[simp] theorem written_nil : written [] = [] := rfl

@[simp] theorem written_cons (p : Piece) (pieces : List Piece) :
    written (p :: pieces) = p.gap ++ (p.slice ++ written pieces) := by
  simp [written]

/-- A piece stands between two texts of a source.  Its gap is blank, and its token covers its
slice; if that is a word, no character before the slice belongs to it.  The place of the token
is where the slice begins. -/
structure Stands (file : String) (before after : List Char) (p : Piece) : Prop where
  blank : ∀ c ∈ p.gap, c = ' ' ∨ c = '\t' ∨ c = '\r'
  covers : p.token.lexeme.Covers p.slice after
  whole : ∀ text, p.token.lexeme = .word text → ∀ c ∈ (before ++ p.gap).getLast?, ¬ WordChar c
  place : p.token.location = .behind file (before ++ p.gap)

end Piece

open Piece

/-- A lexeme behind blanks makes a piece. -/
theorem stands_of_covers {before blanks slice rest : List Char} {l : Lexeme} (file : String)
    (hblanks : ∀ c ∈ blanks, isBlank c = true) (hcovers : l.Covers slice rest)
    (hloose : Loose (before ++ blanks) (slice ++ rest)) :
    Stands file before rest ⟨blanks, ⟨l, .behind file (before ++ blanks)⟩, slice⟩ where
  blank c hc := isBlank_iff.mp (hblanks c hc)
  covers := hcovers
  whole text htext c hc hchar := by
    obtain rfl : l = .word text := htext
    obtain ⟨rfl, hword, _⟩ := hcovers
    obtain ⟨hne, hchars⟩ := anyWord_iff.mp hword
    obtain ⟨d, ds, hds⟩ := List.exists_cons_of_ne_nil hne
    refine hloose c hc hchar d (by simp [hds]) ?_
    exact isChar_iff.mp (hchars d (by simp [hds]))
  place := rfl

/-- Nothing can be cut off the front of a text although there is something: neither a blank nor
a slice that a lexeme covers. -/
def Unfit (text : List Char) : Prop :=
  text ≠ [] ∧ (∀ c ∈ text.head?, ¬ (c = ' ' ∨ c = '\t' ∨ c = '\r')) ∧
    ∀ (l : Lexeme) (slice rest : List Char), text = slice ++ rest → ¬ l.Covers slice rest

theorem unfit_of_cut {c : Char} {cs : List Char} {foreign : Foreign}
    (h : cut c cs = .error foreign) : Unfit (c :: cs) := by
  refine ⟨List.cons_ne_nil c cs, fun d hd hblank => ?_, fun l slice rest htext hcovers => ?_⟩
  · obtain rfl : c = d := by simpa using hd
    simp [cut, isBlank_iff.mpr hblank] at h
  · obtain ⟨d, slice, rfl⟩ := List.exists_cons_of_ne_nil hcovers.ne_nil
    obtain ⟨rfl, rfl⟩ := List.cons.inj htext
    simp [cut_of_covers hcovers] at h

/-! ## Layouts -/

/-- A scan of a text behind `before`, laid out in pieces: what they are written as, a last gap
and what remains.  The scan has the tokens of the pieces.  It goes on to the end of the text and
has the end of input there, or stops where the rest begins and nothing can be cut off. -/
structure Laid (file : String) (before text : List Char) (scan : Scan) (pieces : List Piece)
    (gap rest : List Char) : Prop where
  whole : text = written pieces ++ (gap ++ rest)
  blank : ∀ c ∈ gap, c = ' ' ∨ c = '\t' ∨ c = '\r'
  stands : ∀ earlier p later, pieces = earlier ++ p :: later →
    p.Stands file (before ++ written earlier) (written later ++ (gap ++ rest))
  ends :
    (scan.stop = none ∧ rest = [] ∧
      scan.tokens = pieces.map (·.token) ++ [⟨.endOfInput, .behind file (before ++ text)⟩]) ∨
    ∃ foreign, scan.stop = some (.behind file (before ++ (written pieces ++ gap)), foreign) ∧
      Unfit rest ∧ scan.tokens = pieces.map (·.token)

/-- One more piece in front. -/
theorem Laid.cons {file : String} {before text : List Char} {scan : Scan} {pieces : List Piece}
    {gap rest : List Char} {p : Piece}
    (h : Laid file (before ++ (p.gap ++ p.slice)) text scan pieces gap rest)
    (hp : p.Stands file before text) :
    Laid file before (p.gap ++ (p.slice ++ text))
      (scan.push p.token.location (some p.token.lexeme)) (p :: pieces) gap rest where
  whole := by simp [h.whole]
  blank := h.blank
  stands := by
    intro earlier q later hsplit
    cases earlier with
    | nil =>
        obtain ⟨rfl, rfl⟩ := List.cons.inj hsplit
        simpa [h.whole] using hp
    | cons r earlier =>
        obtain ⟨rfl, hpieces⟩ := List.cons.inj hsplit
        simpa using h.stands earlier q later hpieces
  ends := by
    rcases h.ends with ⟨hstop, hrest, htokens⟩ | ⟨foreign, hstop, hrest, htokens⟩
    · exact .inl ⟨by simp [hstop], hrest, by simp [Scan.push, htokens]⟩
    · exact .inr ⟨foreign, by simp [hstop], hrest, by simp [Scan.push, htokens]⟩

/-- **Every scan comes from a layout** of its text. -/
theorem exists_laid (file : String) {before text : List Char} (h : Loose before text) :
    ∃ pieces gap rest,
      Laid file before text (scanFrom (.behind file before) text) pieces gap rest := by
  induction hn : text.length using Nat.strong_induction_on generalizing before text with
  | _ n ih =>
    subst hn
    -- the next lexeme stands behind all blanks
    obtain ⟨blanks, text', rfl, hblanks, hhead⟩ : ∃ blanks text', text = blanks ++ text' ∧
        (∀ c ∈ blanks, isBlank c = true) ∧ ∀ c ∈ text'.head?, isBlank c = false :=
      ⟨text.takeWhile isBlank, text.dropWhile isBlank, List.takeWhile_append_dropWhile.symm,
        fun c hc => List.mem_takeWhile_imp hc, eq_false_of_head?_dropWhile⟩
    have hgap : ∀ c ∈ blanks, c = ' ' ∨ c = '\t' ∨ c = '\r' :=
      fun c hc => isBlank_iff.mp (hblanks c hc)
    rw [scanFrom_blanks hblanks, Location.behind_advance]
    cases text' with
    | nil =>
        refine ⟨[], blanks, [], by simp, hgap, by simp, .inl ?_⟩
        simp [scanFrom]
    | cons c cs =>
        cases hcut : cut c cs with
        | error foreign =>
            refine ⟨[], blanks, c :: cs, by simp, hgap, by simp, .inr ⟨foreign, ?_⟩⟩
            simp [scanFrom_of_foreign hcut, unfit_of_cut hcut]
        | ok s =>
            rcases cut_cases hcut with ⟨hblank, _⟩ | ⟨l, hl, hcovers⟩
            · simp [hhead c rfl] at hblank
            · have hlength : s.rest.length < (blanks ++ c :: cs).length := by
                have hlt := length_rest_lt_of_cut hcut
                simp only [List.length_append]
                omega
              have hloose := h.blanks hblanks
              rw [← cut_eq hcut] at hloose
              obtain ⟨pieces, gap, rest, hlaid⟩ :=
                ih s.rest.length hlength (loose_of_covers hcovers (before ++ blanks)) rfl
              rw [List.append_assoc] at hlaid
              have hcons := hlaid.cons (stands_of_covers file hblanks hcovers hloose)
              rw [scanFrom_of_cut hcut, hl, Location.behind_advance, ← cut_eq hcut,
                List.append_assoc]
              exact ⟨_, gap, rest, hcons⟩

/-- **Scanning is lossless and places are exact.**  A source is written as the pieces of its
tokens, in order, a last gap and what remains.  Gaps are blank.  Every token covers its slice
whole: a word is a longest run of word characters, a mark is its spelling, a line end is a line
feed, and a comment is its text between a `#` and the carriage returns at the end of the line.
Every place counts the line feeds before the slice, and the characters after the last of them.
A scan that comes to the end has a single end of input, and that stands behind everything; one
that stops has none. -/
theorem scan_lossless (file source : String) :
    ∃ pieces gap rest, Laid file [] source.toList (scan file source) pieces gap rest ∧
      ∀ p ∈ pieces, p.token.lexeme ≠ .endOfInput := by
  have hloose : Loose [] source.toList := by simp [Loose]
  obtain ⟨pieces, gap, rest, hlaid⟩ := exists_laid file hloose
  refine ⟨pieces, gap, rest, hlaid, fun p hp hend => ?_⟩
  obtain ⟨earlier, later, hsplit⟩ := List.append_of_mem hp
  have hcovers := (hlaid.stands earlier p later hsplit).covers
  rw [hend] at hcovers
  exact hcovers

end Token

end MacroAsm
