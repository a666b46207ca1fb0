import Mathlib.Data.List.DropRight
import Mathlib.Data.List.TakeWhile
import MacroAsm.Proofs.Reading

/-!
# MacroAsm.Proofs.Scanning

What scanning makes of a text.  `Lexeme.Covers` says which slices of a text a lexeme stands
for, and that is all there is to say about a single cut: whatever is cut off is a blank or is
covered by its lexeme (`cut_cases`), and whatever is covered by a lexeme is cut off
(`cut_of_covers`).  Scans are then seen from both sides.

* From the tokens: they stand in the order of their places (`pairwise_before_scanFrom`),
  and a word or a comment among them looks like one (`proper_of_mem_scanFrom`).
* From the text: blanks and slices at its front are cut off one after another
  (`scanFrom_blanks`, `scanFrom_of_covers`), and this depends on nothing but the first character
  that follows them (`scanFrom_of_cut_of_head?`).
-/

namespace MacroAsm

/-! ## The order of places -/

namespace Location

/-- One place of a file stands before another: on an earlier line, or further left on
the same one. -/
def Before (a b : Location) : Prop :=
  a.file = b.file ∧ (a.line < b.line ∨ a.line = b.line ∧ a.column < b.column)

theorem Before.trans {a b c : Location} (hab : a.Before b) (hbc : b.Before c) : a.Before c := by
  obtain ⟨hfile, hlt⟩ := hab
  obtain ⟨hfile', hlt'⟩ := hbc
  refine ⟨hfile.trans hfile', ?_⟩
  omega

theorem Before.ne {a b : Location} (h : a.Before b) : a ≠ b := by
  rintro rfl
  have hlt := h.2
  omega

theorem before_next (here : Location) (c : Char) : here.Before (here.next c) := by
  unfold next
  split
  · exact ⟨rfl, .inl (Int.lt_succ here.line)⟩
  · exact ⟨rfl, .inr ⟨rfl, Int.lt_succ here.column⟩⟩

/-- Moving over a text that is not empty leads to a later place. -/
theorem before_advance {text : List Char} (h : text ≠ []) (here : Location) :
    here.Before (here.advance text) := by
  induction text generalizing here with
  | nil => exact absurd rfl h
  | cons c text ih =>
      rw [advance_cons]
      by_cases htext : text = []
      · rw [htext, advance_nil]
        exact before_next here c
      · exact (before_next here c).trans (ih htext (here.next c))

end Location

/-! ## Words and comments -/

namespace Grammar

/-- Characters of words. -/
def WordChar (c : Char) : Prop := Letter c ∨ Digit c ∨ c = '_' ∨ c = '$'

/-- Words of any kind: a non-empty run of letters, digits, `_` and `$`. -/
def AnyWord (word : String) : Prop :=
  word ≠ "" ∧ ∀ c ∈ word.toList, Letter c ∨ Digit c ∨ c = '_' ∨ c = '$'

/-- Texts of comments: they stay on one line, and no carriage return at their end can
be taken for a part of the line end. -/
def OneLine (text : String) : Prop := '\n' ∉ text.toList ∧ text.toList.getLast? ≠ some '\r'

theorem isChar_iff {c : Char} :
    Word.isChar c = true ↔ Letter c ∨ Digit c ∨ c = '_' ∨ c = '$' := by
  simp [Word.isChar, Char.isAlphanum, Reader.isAlpha_iff, Reader.isDigit_iff, or_assoc]

theorem isChar_eq_false_iff {c : Char} : Word.isChar c = false ↔ ¬ WordChar c := by
  rw [← Bool.not_eq_true, isChar_iff, WordChar]

theorem anyWord_iff {word : String} :
    AnyWord word ↔ word.toList ≠ [] ∧ ∀ c ∈ word.toList, Word.isChar c = true := by
  simp [AnyWord, isChar_iff]

instance : DecidablePred WordChar := fun c =>
  decidable_of_iff (Word.isChar c = true) isChar_iff

instance : DecidablePred AnyWord := fun word =>
  decidable_of_iff (word.toList ≠ [] ∧ word.toList.all Word.isChar = true)
    (by rw [anyWord_iff, List.all_eq_true])

instance : DecidablePred OneLine := fun text =>
  inferInstanceAs (Decidable ('\n' ∉ text.toList ∧ text.toList.getLast? ≠ some '\r'))

instance : DecidablePred Name := fun word =>
  decidable_of_iff (Word.isName word = true) Reader.isName_iff

instance : DecidablePred Label := fun word =>
  decidable_of_iff (Opcode.ofWord? word = none ∧ Word.isLabel word = true)
    ⟨fun h => (Reader.isLabel_iff h.1).mp h.2, fun h =>
      have hnone := Opcode.ofWord?_eq_none_iff.mpr h.2
      ⟨hnone, (Reader.isLabel_iff hnone).mpr h⟩⟩

/-- Names are words. -/
theorem Name.anyWord {word : String} (h : Name word) : AnyWord word := by
  refine ⟨h.1, fun c hc => ?_⟩
  rcases h.2 c hc with hletter | hbar
  · exact .inl hletter
  · exact .inr (.inr (.inl hbar))

/-- Labels are words. -/
theorem Label.anyWord {word : String} (h : Label word) : AnyWord word := by
  refine ⟨h.1.1, fun c hc => ?_⟩
  rcases h.1.2 c hc with hletter | hdigit | hbar
  · exact .inl hletter
  · exact .inr (.inl hdigit)
  · exact .inr (.inr (.inl hbar))

end Grammar

open Grammar

/-- What a scanned lexeme can be: the text of a word or of a comment is not arbitrary. -/
def Lexeme.Proper : Lexeme → Prop
  | word text => AnyWord text
  | comment text => OneLine text
  | _ => True

/-- A lexeme covers a slice of a text that has `rest` behind it.  Words go on as far as their
characters do and comments up to the end of their line, where carriage returns do not count.
The end of input covers nothing. -/
def Lexeme.Covers (slice rest : List Char) : Lexeme → Prop
  | newline => slice = ['\n']
  | endOfInput => False
  | word text => slice = text.toList ∧ AnyWord text ∧ ∀ c ∈ rest.head?, ¬ WordChar c
  | comment text =>
    (∃ returns, (∀ c ∈ returns, c = '\r') ∧ slice = '#' :: (text.toList ++ returns)) ∧
      OneLine text ∧ ∀ c ∈ rest.head?, c = '\n'
  | mark m text => text = m.spelling ∧ slice = text.toList

theorem Lexeme.Covers.ne_nil {slice rest : List Char} {l : Lexeme} (h : l.Covers slice rest) :
    slice ≠ [] := by
  rintro rfl
  cases l with
  | newline => cases h
  | endOfInput => cases h
  | word text => exact (anyWord_iff.mp h.2.1).1 h.1.symm
  | comment text =>
      obtain ⟨⟨_, _, hslice⟩, _⟩ := h
      cases hslice
  | mark m text =>
      obtain ⟨rfl, hslice⟩ := h
      cases m <;> cases hslice

/-- What a lexeme covers depends on the first character behind it only, and a line end is as
good as any other. -/
theorem Lexeme.Covers.of_head? {slice rest rest' : List Char} {l : Lexeme}
    (h : l.Covers slice rest) (hrest : ∀ c ∈ rest'.head?, c ∈ rest.head? ∨ c = '\n') :
    l.Covers slice rest' := by
  cases l with
  | newline => exact h
  | endOfInput => exact h
  | mark m text => exact h
  | word text =>
      refine ⟨h.1, h.2.1, fun c hc => ?_⟩
      rcases hrest c hc with hc | rfl
      · exact h.2.2 c hc
      · decide
  | comment text =>
      refine ⟨h.1, h.2.1, fun c hc => ?_⟩
      rcases hrest c hc with hc | rfl
      · exact h.2.2 c hc
      · rfl

namespace Token

/-! ## Carriage returns at the end of a line -/

theorem dropReturns_eq (line : List Char) : dropReturns line = line.rdropWhile (· == '\r') := rfl

theorem mem_of_mem_dropReturns {c : Char} {line : List Char} (h : c ∈ dropReturns line) :
    c ∈ line := by
  rw [dropReturns_eq] at h
  exact (List.rdropWhile_prefix (· == '\r') line).subset h

theorem getLast?_dropReturns (line : List Char) : (dropReturns line).getLast? ≠ some '\r' := by
  intro hlast
  obtain ⟨hne, hreturn⟩ := List.mem_getLast?_eq_getLast hlast
  have hnot := List.rdropWhile_last_not (· == '\r') line hne
  exact hnot (beq_iff_eq.mpr hreturn.symm)

/-- A line that ends otherwise keeps all its characters. -/
theorem dropReturns_eq_self {line : List Char} (h : line.getLast? ≠ some '\r') :
    dropReturns line = line := by
  rw [dropReturns_eq, List.rdropWhile_eq_self_iff]
  intro hne hlast
  rw [List.getLast?_eq_some_getLast hne, beq_iff_eq.mp hlast] at h
  exact h rfl

theorem dropReturns_concat_return (line : List Char) :
    dropReturns (line ++ ['\r']) = dropReturns line := by
  simp [dropReturns]

theorem dropReturns_append_returns (line : List Char) {returns : List Char}
    (h : ∀ c ∈ returns, c = '\r') : dropReturns (line ++ returns) = dropReturns line := by
  induction returns using List.reverseRecOn with
  | nil => rw [List.append_nil]
  | append_singleton returns c ih =>
      obtain rfl := h c (by simp)
      rw [← List.append_assoc, dropReturns_concat_return]
      exact ih fun d hd => h d (List.mem_append_left _ hd)

theorem newline_notMem_append {line returns : List Char} (h : '\n' ∉ line)
    (hreturns : ∀ c ∈ returns, c = '\r') : '\n' ∉ line ++ returns := by
  rw [List.mem_append, not_or]
  exact ⟨h, fun hmem => absurd (hreturns _ hmem) (by decide)⟩

/-! ## What is cut off -/

theorem toList_spelling_of_mark? {c : Char} {m : Mark} (h : mark? c = some m) :
    m.spelling.toList = [c] := by
  unfold mark? at h
  split at h
  all_goals cases h
  all_goals rfl

theorem eq_false_of_head?_dropWhile {p : Char → Bool} {text : List Char} :
    ∀ c ∈ (text.dropWhile p).head?, p c = false := by
  intro c hc
  have hnot := List.head?_dropWhile_not p text
  rw [Option.mem_def.mp hc] at hnot
  exact hnot

/-- **What is cut off a text**: a single blank, or a slice that is covered by a lexeme. -/
theorem cut_cases {c : Char} {cs : List Char} {s : Slice} (h : cut c cs = .ok s) :
    (isBlank c = true ∧ s = ⟨none, [c], cs⟩) ∨
      ∃ l, s.lexeme = some l ∧ l.Covers s.text s.rest := by
  unfold cut at h
  split at h
  · rename_i hblank
    cases h
    exact .inl ⟨hblank, rfl⟩
  right
  split at h
  · rename_i hc
    cases h
    exact ⟨_, rfl, congrArg (fun d => [d]) hc⟩
  split at h
  · -- a comment, with the carriage returns that are no part of its text
    rename_i hc
    cases h
    have hsplit : dropReturns (cs.takeWhile (· != '\n')) ++
        (cs.takeWhile (· != '\n')).rtakeWhile (· == '\r') = cs.takeWhile (· != '\n') :=
      List.rdropWhile_append_rtakeWhile
    refine ⟨_, rfl, ⟨(cs.takeWhile (· != '\n')).rtakeWhile (· == '\r'), fun d hd => ?_, ?_⟩,
      ⟨fun hnewline => ?_, ?_⟩, fun d hd => ?_⟩
    · simpa using List.mem_rtakeWhile_imp hd
    · rw [String.toList_ofList, hsplit, hc]
    · rw [String.toList_ofList] at hnewline
      have hmem := List.mem_takeWhile_imp (mem_of_mem_dropReturns hnewline)
      simp at hmem
    · rw [String.toList_ofList]
      exact getLast?_dropReturns _
    · simpa using eq_false_of_head?_dropWhile d hd
  split at h
  · rename_i hc
    cases h
    refine ⟨_, rfl, by rw [String.toList_ofList], anyWord_iff.mpr ⟨by simp, fun d hd => ?_⟩,
      fun d hd => isChar_eq_false_iff.mp (eq_false_of_head?_dropWhile d hd)⟩
    rw [String.toList_ofList] at hd
    rcases List.mem_cons.mp hd with rfl | hd
    · exact hc
    · exact List.mem_takeWhile_imp hd
  split at h
  · split at h
    · cases h
      exact ⟨_, rfl, rfl, rfl⟩
    · cases h
  · split at h
    · rename_i m hm
      cases h
      exact ⟨_, rfl, rfl, (toList_spelling_of_mark? hm).symm⟩
    · cases h

/-- Why nothing can be cut off a text. -/
theorem cut_error_cases {c : Char} {cs : List Char} {foreign : Foreign}
    (h : cut c cs = .error foreign) :
    isBlank c = false ∧ c ≠ '\n' ∧ c ≠ '#' ∧ Word.isChar c = false ∧
      ((c = '!' ∧ cs.head? ≠ some '(' ∧ foreign = .bareBang) ∨
        (c ≠ '!' ∧ mark? c = none ∧ foreign = .character c)) := by
  unfold cut at h
  split at h
  · cases h
  rename_i hblank
  split at h
  · cases h
  rename_i hnewline
  split at h
  · cases h
  rename_i hhash
  split at h
  · cases h
  rename_i hchar
  refine ⟨Bool.eq_false_iff.mpr hblank, hnewline, hhash, Bool.eq_false_iff.mpr hchar, ?_⟩
  split at h
  · rename_i hbang
    split at h
    · cases h
    · rename_i hparen
      cases h
      refine .inl ⟨hbang, fun hhead => ?_, rfl⟩
      obtain ⟨rest, rfl⟩ := List.head?_eq_some_iff.mp hhead
      exact hparen rest rfl
  · rename_i hbang
    split at h
    · cases h
    · rename_i hmark
      cases h
      exact .inr ⟨hbang, hmark, rfl⟩

theorem covers_of_cut {c : Char} {cs : List Char} {s : Slice} {l : Lexeme} (h : cut c cs = .ok s)
    (hl : l ∈ s.lexeme) : l.Covers s.text s.rest := by
  rcases cut_cases h with ⟨_, rfl⟩ | ⟨l', hl', hcovers⟩
  · cases hl
  · obtain rfl : l' = l := Option.some.inj (hl'.symm.trans hl)
    exact hcovers

theorem isBlank_iff {c : Char} : isBlank c = true ↔ c = ' ' ∨ c = '\t' ∨ c = '\r' := by
  simp [isBlank, or_assoc]

theorem not_wordChar_of_isBlank {c : Char} (h : isBlank c = true) : ¬ WordChar c := by
  rcases isBlank_iff.mp h with rfl | rfl | rfl
  all_goals decide

theorem isBlank_eq_false_of_isChar {c : Char} (h : Word.isChar c = true) : isBlank c = false := by
  by_contra hblank
  exact not_wordChar_of_isBlank (Bool.not_eq_false _ ▸ hblank) (isChar_iff.mp h)

theorem cut_of_isChar {c : Char} (h : Word.isChar c = true) (cs : List Char) :
    cut c cs = .ok ⟨some (.word (String.ofList (c :: cs.takeWhile Word.isChar))),
      c :: cs.takeWhile Word.isChar, cs.dropWhile Word.isChar⟩ := by
  have hnewline : c ≠ '\n' := by rintro rfl; exact absurd h (by decide)
  have hhash : c ≠ '#' := by rintro rfl; exact absurd h (by decide)
  simp [cut, isBlank_eq_false_of_isChar h, hnewline, hhash, h]

theorem cut_hash (cs : List Char) :
    cut '#' cs = .ok ⟨some (.comment (String.ofList (dropReturns (cs.takeWhile (· != '\n'))))),
      '#' :: cs.takeWhile (· != '\n'), cs.dropWhile (· != '\n')⟩ := rfl

/-- A run of characters that cannot go on is found whole. -/
theorem span_of_stop {p : Char → Bool} {run rest : List Char} (hrun : ∀ c ∈ run, p c = true)
    (hrest : ∀ c ∈ rest.head?, p c = false) :
    (run ++ rest).takeWhile p = run ∧ (run ++ rest).dropWhile p = rest := by
  rw [List.takeWhile_append_of_pos hrun, List.dropWhile_append_of_pos hrun]
  cases rest with
  | nil => simp
  | cons c rest => simp [hrest c rfl]

/-- **A slice that is covered by a lexeme is cut off.** -/
theorem cut_of_covers {c : Char} {slice rest : List Char} {l : Lexeme}
    (h : l.Covers (c :: slice) rest) :
    cut c (slice ++ rest) = .ok ⟨some l, c :: slice, rest⟩ := by
  cases l with
  | newline =>
      obtain ⟨rfl, rfl⟩ := List.cons.inj h
      rfl
  | endOfInput => cases h
  | word text =>
      obtain ⟨hslice, hword, hrest⟩ := h
      have hchars := (anyWord_iff.mp hword).2
      rw [← hslice] at hchars
      have hstop : ∀ d ∈ rest.head?, Word.isChar d = false :=
        fun d hd => isChar_eq_false_iff.mpr (hrest d hd)
      have hspan := span_of_stop (fun d hd => hchars d (List.mem_cons_of_mem c hd)) hstop
      rw [cut_of_isChar (hchars c List.mem_cons_self), hspan.1, hspan.2, hslice,
        String.ofList_toList]
  | comment text =>
      obtain ⟨⟨returns, hreturns, hslice⟩, ⟨hnewline, hlast⟩, hrest⟩ := h
      obtain ⟨rfl, rfl⟩ := List.cons.inj hslice
      have hline : ∀ d ∈ text.toList ++ returns, (d != '\n') = true := by
        intro d hd
        rw [bne_iff_ne]
        rintro rfl
        exact newline_notMem_append hnewline hreturns hd
      have hstop : ∀ d ∈ rest.head?, (d != '\n') = false := by simpa using hrest
      have hspan := span_of_stop hline hstop
      rw [cut_hash, hspan.1, hspan.2, dropReturns_append_returns _ hreturns,
        dropReturns_eq_self hlast, String.ofList_toList]
  | mark m text =>
      obtain ⟨rfl, hslice⟩ := h
      cases m
      all_goals
        obtain ⟨rfl, rfl⟩ := List.cons.inj hslice
        rfl

/-! ## What is scanned -/

/-- A slice of a text is a word or a comment only if it looks like one. -/
theorem proper_of_cut {c : Char} {cs : List Char} {s : Slice} (h : cut c cs = .ok s) :
    ∀ l ∈ s.lexeme, l.Proper := by
  intro l hl
  have hcovers := covers_of_cut h hl
  cases l with
  | word text => exact hcovers.2.1
  | comment text => exact hcovers.2.1
  | _ => trivial

@[simp] theorem Scan.stop_push (here : Location) (lexeme : Option Lexeme) (scan : Scan) :
    (scan.push here lexeme).stop = scan.stop := by
  cases lexeme <;> rfl

theorem mem_tokens_push {here : Location} {lexeme : Option Lexeme} {scan : Scan} {t : Token} :
    t ∈ (scan.push here lexeme).tokens ↔
      (∃ l ∈ lexeme, t = ⟨l, here⟩) ∨ t ∈ scan.tokens := by
  cases lexeme with
  | none => simp [Scan.push]
  | some l => simp [Scan.push]

/-- **Scanned words and comments are such.** -/
theorem proper_of_mem_scanFrom {here : Location} {text : List Char} {t : Token}
    (h : t ∈ (scanFrom here text).tokens) : t.lexeme.Proper := by
  fun_induction scanFrom here text with
  | case1 here =>
      rw [List.mem_singleton] at h
      rw [h]
      trivial
  | case2 => cases h
  | case3 here c cs slice hcut ih =>
      rcases mem_tokens_push.mp h with ⟨l, hl, rfl⟩ | hrest
      · exact proper_of_cut hcut l hl
      · exact ih hrest

/-- No token stands before the place where scanning starts. -/
theorem location_of_mem_scanFrom {here : Location} {text : List Char} {t : Token}
    (h : t ∈ (scanFrom here text).tokens) : t.location = here ∨ here.Before t.location := by
  fun_induction scanFrom here text with
  | case1 here =>
      rw [List.mem_singleton] at h
      rw [h]
      exact .inl rfl
  | case2 => cases h
  | case3 here c cs slice hcut ih =>
      rcases mem_tokens_push.mp h with ⟨l, _, rfl⟩ | hrest
      · exact .inl rfl
      · have hadvance := Location.before_advance (text_ne_nil_of_cut hcut) here
        rcases ih hrest with hthere | hafter
        · rw [hthere]
          exact .inr hadvance
        · exact .inr (hadvance.trans hafter)

/-- **Tokens stand in the order of their places**, no two at the same one. -/
theorem pairwise_before_scanFrom (here : Location) (text : List Char) :
    (scanFrom here text).tokens.Pairwise fun s t => s.location.Before t.location := by
  fun_induction scanFrom here text with
  | case1 here => exact List.pairwise_singleton _ _
  | case2 => exact List.Pairwise.nil
  | case3 here c cs slice hcut ih =>
      obtain ⟨lexeme, sliced, rest⟩ := slice
      cases lexeme with
      | none => exact ih
      | some l =>
          refine List.pairwise_cons.mpr ⟨fun t ht => ?_, ih⟩
          have hadvance := Location.before_advance (text_ne_nil_of_cut hcut) here
          rcases location_of_mem_scanFrom ht with hthere | hafter
          · rw [hthere]
            exact hadvance
          · exact hadvance.trans hafter

/-- The tokens of a text are told apart by their places. -/
theorem index_eq_of_scanFrom {here : Location} {text : List Char} {j k : Nat} {s t : Token}
    (hj : (scanFrom here text).tokens[j]? = some s)
    (hk : (scanFrom here text).tokens[k]? = some t) (h : s.location = t.location) : j = k := by
  have hbefore := List.pairwise_iff_getElem.mp (pairwise_before_scanFrom here text)
  obtain ⟨hjlt, rfl⟩ := List.getElem?_eq_some_iff.mp hj
  obtain ⟨hklt, rfl⟩ := List.getElem?_eq_some_iff.mp hk
  rcases Nat.lt_trichotomy j k with hlt | heq | hgt
  · exact absurd h (hbefore j k hjlt hklt hlt).ne
  · exact heq
  · exact absurd h.symm (hbefore k j hklt hjlt hgt).ne

/-! ## Scanning from the front -/

theorem scanFrom_of_cut {c : Char} {cs : List Char} {s : Slice} (h : cut c cs = .ok s)
    (here : Location) :
    scanFrom here (c :: cs) = (scanFrom (here.advance s.text) s.rest).push here s.lexeme := by
  rw [scanFrom]
  grind

theorem scanFrom_of_foreign {c : Char} {cs : List Char} {foreign : Foreign}
    (h : cut c cs = .error foreign) (here : Location) :
    scanFrom here (c :: cs) = ⟨[], some (here, foreign)⟩ := by
  rw [scanFrom]
  grind

/-- Blanks leave nothing behind. -/
theorem scanFrom_blanks {blanks : List Char} (h : ∀ c ∈ blanks, isBlank c = true)
    (here : Location) (rest : List Char) :
    scanFrom here (blanks ++ rest) = scanFrom (here.advance blanks) rest := by
  induction blanks generalizing here with
  | nil => rfl
  | cons c blanks ih =>
      have hcut : cut c (blanks ++ rest) = .ok ⟨none, [c], blanks ++ rest⟩ := by
        simp [cut, h c List.mem_cons_self]
      rw [List.cons_append, scanFrom_of_cut hcut]
      exact ih (fun d hd => h d (List.mem_cons_of_mem c hd)) (here.next c)

/-- **A slice that is covered by a lexeme is scanned as it.** -/
theorem scanFrom_of_covers {slice rest : List Char} {l : Lexeme} (h : l.Covers slice rest)
    (here : Location) :
    scanFrom here (slice ++ rest) = (scanFrom (here.advance slice) rest).push here (some l) := by
  obtain ⟨c, slice, rfl⟩ := List.exists_cons_of_ne_nil h.ne_nil
  exact scanFrom_of_cut (cut_of_covers h) here

/-- What was cut off one text is cut off any other that goes on in the same way, or ends the line
there. -/
theorem scanFrom_of_cut_of_head? {c : Char} {cs rest : List Char} {s : Slice}
    (h : cut c cs = .ok s) (hrest : ∀ d ∈ rest.head?, d ∈ s.rest.head? ∨ d = '\n')
    (here : Location) :
    scanFrom here (s.text ++ rest) =
      (scanFrom (here.advance s.text) rest).push here s.lexeme := by
  rcases cut_cases h with ⟨hblank, rfl⟩ | ⟨l, hl, hcovers⟩
  · exact scanFrom_blanks (by simpa using hblank) here rest
  · rw [hl]
    exact scanFrom_of_covers (hcovers.of_head? hrest) here

/-- A line end is a token of its own. -/
theorem scanFrom_newline (here : Location) (rest : List Char) :
    scanFrom here ('\n' :: rest) =
      (scanFrom (here.next '\n') rest).push here (some .newline) := by
  have hcovers : Lexeme.newline.Covers ['\n'] rest := rfl
  exact scanFrom_of_covers hcovers here

/-- A word goes as far as its characters do. -/
theorem scanFrom_word {word : String} (hword : AnyWord word) (here : Location)
    {rest : List Char} (hrest : ∀ c ∈ rest.head?, Word.isChar c = false) :
    scanFrom here (word.toList ++ rest) =
      (scanFrom (here.advance word.toList) rest).push here (some (.word word)) := by
  have hcovers : (Lexeme.word word).Covers word.toList rest :=
    ⟨rfl, hword, fun c hc => isChar_eq_false_iff.mp (hrest c hc)⟩
  exact scanFrom_of_covers hcovers here

/-- A comment goes up to the end of its line. -/
theorem scanFrom_comment {text : String} (htext : OneLine text) (here : Location)
    (rest : List Char) :
    scanFrom here ('#' :: (text.toList ++ '\n' :: rest)) =
      (scanFrom (here.advance ('#' :: text.toList)) ('\n' :: rest)).push here
        (some (.comment text)) := by
  have hcovers : (Lexeme.comment text).Covers ('#' :: text.toList) ('\n' :: rest) :=
    ⟨⟨[], by simp, by simp⟩, htext, by simp⟩
  exact scanFrom_of_covers hcovers here

end Token

end MacroAsm
