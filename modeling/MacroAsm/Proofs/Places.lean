import MacroAsm.Proofs.Scanning
import MacroAsm.Source.Lines

/-!
# MacroAsm.Proofs.Places

Where tokens stand in their source.  A place is a line and a column; the text before it
decides both, and the line that is found under the number has the token at the column.

* `Location.start_advance` — the place after a text: line feeds count lines, and characters
  after the last one count columns;
* `Source.getElem?_physicalLines` — the physical line around a place, and
  `Source.exists_split_of_line` — the place of a column in such a line;
* `Source.physicalLine?_eq_lineFrom` — the same line is found from where it starts;
* `Token.exists_split_of_mem_scanFrom` — a token stands between the text before its place
  and the rest of the source, which starts with its spelling;
* `Token.spelling_prefix_line` — so it is found in the line of its place, at its column.
-/

namespace MacroAsm

/-! ## Counting lines and columns -/

/-- The end of a text after its last line feed. -/
def Source.lastLine (text : List Char) : List Char := text.rtakeWhile (· != '\n')

namespace Source

theorem lastLine_concat_newline (text : List Char) : lastLine (text ++ ['\n']) = [] :=
  List.rtakeWhile_concat_neg _ _ _ (by simp)

theorem lastLine_concat {c : Char} (h : c ≠ '\n') (text : List Char) :
    lastLine (text ++ [c]) = lastLine text ++ [c] :=
  List.rtakeWhile_concat_pos _ _ _ (by simpa using h)

theorem lastLine_append {text : List Char} (h : '\n' ∉ text) (before : List Char) :
    lastLine (before ++ text) = lastLine before ++ text := by
  induction text using List.reverseRecOn with
  | nil => simp
  | append_singleton text c ih =>
      have hc : c ≠ '\n' := fun hc => h (by simp [hc])
      rw [← List.append_assoc, lastLine_concat hc, ih fun htext => h (by simp [htext])]
      simp

theorem lastLine_of_notMem {text : List Char} (h : '\n' ∉ text) : lastLine text = text :=
  lastLine_append h []

/-- Nothing before a line feed is in the last line. -/
theorem lastLine_newline_append (before text : List Char) :
    lastLine (before ++ '\n' :: text) = lastLine text := by
  induction text using List.reverseRecOn with
  | nil => exact lastLine_concat_newline before
  | append_singleton text c ih =>
      rw [← List.cons_append, ← List.append_assoc]
      by_cases hc : c = '\n'
      · rw [hc, lastLine_concat_newline, lastLine_concat_newline]
      · rw [lastLine_concat hc, lastLine_concat hc, ih]

end Source

/-- **The place after a text** from the start of a file. -/
theorem Location.start_advance (file : String) (text : List Char) :
    (start file).advance text =
      ⟨file, 1 + text.count '\n', 1 + (Source.lastLine text).length⟩ := by
  induction text using List.reverseRecOn with
  | nil => rfl
  | append_singleton text c ih =>
      rw [advance_append, ih, advance_cons, advance_nil, next]
      by_cases hc : c = '\n'
      · subst hc
        simp [Source.lastLine_concat_newline, List.count_append, Int.add_assoc]
      · have hcount : [c].count '\n' = 0 := by simp [hc]
        simp [hc, Source.lastLine_concat hc, List.count_append, hcount, Int.add_assoc]

namespace Source

theorem physicalLines_newline (rest : List Char) :
    physicalLines ('\n' :: rest) = [] :: physicalLines rest := rfl

theorem physicalLines_cons {c : Char} (hc : c ≠ '\n') {rest line : List Char}
    {lines : List (List Char)} (h : physicalLines rest = line :: lines) :
    physicalLines (c :: rest) = (c :: line) :: lines := by
  rw [physicalLines, h]
  exact hc

/-- The first physical line goes up to the first line feed. -/
theorem exists_physicalLines_eq (text : List Char) :
    ∃ lines, physicalLines text = text.takeWhile (· != '\n') :: lines := by
  induction text with
  | nil => exact ⟨[], rfl⟩
  | cons c text ih =>
      obtain ⟨lines, hlines⟩ := ih
      by_cases hc : c = '\n'
      · subst hc
        exact ⟨physicalLines text, rfl⟩
      · refine ⟨lines, ?_⟩
        rw [physicalLines_cons hc hlines]
        simp [hc]

/-- Lines of two texts put together: the last line of the first goes on with the first line of
the second. -/
theorem physicalLines_append (before after : List Char) :
    ∃ earlier line later, physicalLines after = line :: later ∧
      physicalLines (before ++ after) = earlier ++ (lastLine before ++ line) :: later ∧
      earlier.length = before.count '\n' := by
  induction before using List.reverseRecOn generalizing after with
  | nil =>
      obtain ⟨later, hlater⟩ := exists_physicalLines_eq after
      exact ⟨[], _, later, hlater, hlater, rfl⟩
  | append_singleton before c ih =>
      obtain ⟨later, hlater⟩ := exists_physicalLines_eq after
      obtain ⟨earlier, line', later', hline', hlines, hlength⟩ := ih (c :: after)
      rw [List.append_assoc, List.singleton_append, hlines, List.count_append]
      by_cases hc : c = '\n'
      · -- a line ends here
        subst hc
        rw [physicalLines_newline] at hline'
        obtain ⟨rfl, rfl⟩ := List.cons.inj hline'
        refine ⟨earlier ++ [lastLine before], _, later, hlater, ?_, ?_⟩
        · simp [lastLine_concat_newline, hlater]
        · simp [hlength]
      · -- the line goes on
        rw [physicalLines_cons hc hlater] at hline'
        obtain ⟨rfl, rfl⟩ := List.cons.inj hline'
        refine ⟨earlier, _, later, hlater, ?_, ?_⟩
        · simp [lastLine_concat hc]
        · simp [hlength, hc]

/-- **The physical line around a place**: what stands before it since the last line feed, and
what follows up to the next one. -/
theorem getElem?_physicalLines (before after : List Char) :
    (physicalLines (before ++ after))[before.count '\n']? =
      some (lastLine before ++ after.takeWhile (· != '\n')) := by
  obtain ⟨earlier, line, later, hline, hlines, hlength⟩ := physicalLines_append before after
  obtain ⟨later', hlater'⟩ := exists_physicalLines_eq after
  obtain ⟨rfl, _⟩ := List.cons.inj (hline.symm.trans hlater')
  rw [hlines, ← hlength]
  simp

/-- The same for numbers as places have them. -/
theorem physicalLine?_of_split {source : String} {before after : List Char}
    (h : source.toList = before ++ after) :
    physicalLine? source (1 + before.count '\n') =
      some (String.ofList (lastLine before ++ after.takeWhile (· != '\n'))) := by
  have hnumber : ¬ (1 + before.count '\n' : Int) < 1 := by omega
  have hindex : (1 + before.count '\n' - 1 : Int).toNat = before.count '\n' := by omega
  rw [physicalLine?, if_neg hnumber, hindex, h, getElem?_physicalLines]
  rfl

/-! ### Lines from their start

Whoever goes through a text can remember where the current line starts.  The line is then found
without counting: it goes from there to the next line feed. -/

/-- How many characters are behind, and how many of them are before the current line. -/
structure Position where
  passed : Nat := 0
  lineStart : Nat := 0

/-- The position behind one more character. -/
def Position.next (here : Position) (c : Char) : Position :=
  if c = '\n' then ⟨here.passed + 1, here.passed + 1⟩ else { here with passed := here.passed + 1 }

/-- The position behind a text. -/
def Position.behind (text : List Char) : Position := text.foldl next {}

/-- The line that starts behind a number of characters. -/
def lineFrom (source : String) (start : Nat) : String :=
  String.ofList ((source.toList.drop start).takeWhile (· != '\n'))

/-- The characters before the current line are those before the last line. -/
theorem Position.exists_lineStart (text : List Char) :
    (behind text).passed = text.length ∧
      ∃ earlier, text = earlier ++ lastLine text ∧ (behind text).lineStart = earlier.length := by
  induction text using List.reverseRecOn with
  | nil => exact ⟨rfl, [], rfl, rfl⟩
  | append_singleton text c ih =>
    obtain ⟨hpassed, earlier, htext, hstart⟩ := ih
    have hbehind : behind (text ++ [c]) = (behind text).next c := List.foldl_concat ..
    by_cases hc : c = '\n'
    · subst hc
      rw [hbehind, lastLine_concat_newline]
      exact ⟨by simp [next, hpassed], text ++ ['\n'], by simp, by simp [next, hpassed]⟩
    · rw [hbehind, lastLine_concat hc]
      refine ⟨by simp [next, hc, hpassed], earlier, ?_, by simp [next, hc, hstart]⟩
      rw [← List.append_assoc, ← htext]

/-- **The line from its start is the physical line of its number.** -/
theorem physicalLine?_eq_lineFrom {source : String} {before after : List Char}
    (h : source.toList = before ++ after) :
    physicalLine? source (1 + before.count '\n') =
      some (lineFrom source (Position.behind before).lineStart) := by
  obtain ⟨_, earlier, hbefore, hstart⟩ := Position.exists_lineStart before
  have hline : ∀ c ∈ lastLine before, (c != '\n') = true :=
    fun c hc => List.mem_rtakeWhile_imp (p := (· != '\n')) hc
  have hsource : source.toList = earlier ++ (lastLine before ++ after) := by
    rw [h, ← List.append_assoc, ← hbefore]
  rw [physicalLine?_of_split h, lineFrom, hstart, hsource, List.drop_left,
    List.takeWhile_append_of_pos hline]

/-- **A column of a line is a place in the text.** -/
theorem exists_split_of_line {text row : List Char} {i column : Nat} {c : Char}
    (hrow : (physicalLines text)[i]? = some row) (hc : row[column]? = some c) :
    ∃ before after, text = before ++ c :: after ∧ before.count '\n' = i ∧
      (lastLine before).length = column := by
  induction text generalizing i column row with
  | nil =>
      cases i with
      | zero =>
          obtain rfl : [] = row := by simpa [physicalLines] using hrow
          simp at hc
      | succ i => simp [physicalLines] at hrow
  | cons d text ih =>
      by_cases hd : d = '\n'
      · -- the first line is empty
        subst hd
        rw [physicalLines_newline] at hrow
        cases i with
        | zero =>
            obtain rfl : [] = row := by simpa using hrow
            simp at hc
        | succ i =>
            obtain ⟨before, after, rfl, hcount, hlength⟩ := ih hrow hc
            refine ⟨'\n' :: before, after, rfl, by simp [hcount], ?_⟩
            rw [← List.nil_append ('\n' :: before), lastLine_newline_append, hlength]
      · obtain ⟨lines, hlines⟩ := exists_physicalLines_eq text
        rw [physicalLines_cons hd hlines] at hrow
        cases i with
        | zero =>
            obtain rfl : d :: text.takeWhile (· != '\n') = row := by simpa using hrow
            cases column with
            | zero =>
                obtain rfl : d = c := by simpa using hc
                exact ⟨[], text, rfl, rfl, rfl⟩
            | succ column =>
                have hfirst : (physicalLines text)[0]? = some (text.takeWhile (· != '\n')) := by
                  simp [hlines]
                obtain ⟨before, after, rfl, hcount, hlength⟩ := ih hfirst (by simpa using hc)
                have hnone : '\n' ∉ before := List.count_eq_zero.mp hcount
                rw [lastLine_of_notMem hnone] at hlength
                refine ⟨d :: before, after, rfl, by simp [hcount, hd], ?_⟩
                rw [lastLine_of_notMem (by simp [hnone, Ne.symm hd])]
                simp [hlength]
        | succ i =>
            have hlater : (physicalLines text)[i + 1]? = some row := by simpa [hlines] using hrow
            obtain ⟨before, after, rfl, hcount, hlength⟩ := ih hlater hc
            have hmem : '\n' ∈ before := List.count_pos_iff.mp (by omega)
            obtain ⟨earlier, last, rfl⟩ := List.append_of_mem hmem
            refine ⟨d :: (earlier ++ '\n' :: last), after, rfl, by simp [← hcount, hd], ?_⟩
            rw [← List.cons_append, lastLine_newline_append, ← hlength, lastLine_newline_append]

end Source

/-! ## Tokens in their source -/

/-- How a lexeme is written, the carriage returns at the end of a comment aside. -/
def Lexeme.spelling : Lexeme → List Char
  | newline => ['\n']
  | endOfInput => []
  | word text => text.toList
  | comment text => '#' :: text.toList
  | mark _ text => text.toList

/-- Words and marks, the lexemes with a text of their own that take part in items. -/
def Lexeme.isSolid : Lexeme → Bool
  | word _ => true
  | mark _ _ => true
  | _ => false

namespace Token

/-- A slice starts with the spelling of the lexeme that covers it. -/
theorem spelling_prefix_of_covers {slice rest : List Char} {l : Lexeme} (h : l.Covers slice rest) :
    l.spelling <+: slice := by
  cases l with
  | newline => exact h ▸ List.prefix_rfl
  | endOfInput => cases h
  | word text => exact h.1 ▸ List.prefix_rfl
  | comment text =>
      obtain ⟨⟨returns, _, rfl⟩, _⟩ := h
      exact List.prefix_append ('#' :: text.toList) returns
  | mark m text => exact h.2 ▸ List.prefix_rfl

theorem isLineBoundary_eq_false_of_isChar {c : Char} (h : Word.isChar c = true) :
    Source.isLineBoundary c = false := by
  by_contra hboundary
  simp only [Bool.not_eq_false, Source.isLineBoundary, Bool.or_eq_true, beq_iff_eq] at hboundary
  rcases hboundary with ((((((((rfl | rfl) | rfl) | rfl) | rfl) | rfl) | rfl) | rfl) | rfl) | rfl
  all_goals exact absurd h (by decide)

/-- Words and marks break no lines. -/
theorem isLineBoundary_of_mem_spelling {slice rest : List Char} {l : Lexeme}
    (h : l.Covers slice rest) (hsolid : l.isSolid = true) :
    ∀ c ∈ l.spelling, Source.isLineBoundary c = false := by
  cases l with
  | word text =>
      intro c hc
      exact isLineBoundary_eq_false_of_isChar ((Grammar.anyWord_iff.mp h.2.1).2 c hc)
  | mark m text =>
      rw [h.1]
      cases m <;> simp [Lexeme.spelling, Mark.spelling, Source.isLineBoundary]
  | _ => cases hsolid

/-- **A token stands in its source** after the text that leads to its place, and its spelling
comes next. -/
theorem exists_split_of_mem_scanFrom {here : Location} {text : List Char} {t : Token}
    (h : t ∈ (scanFrom here text).tokens) :
    ∃ before after, text = before ++ after ∧ t.location = here.advance before ∧
      t.lexeme.spelling <+: after ∧
      (t.lexeme.isSolid = true →
        ∀ c ∈ t.lexeme.spelling, Source.isLineBoundary c = false) := by
  fun_induction scanFrom here text with
  | case1 here =>
      rw [List.mem_singleton] at h
      subst h
      exact ⟨[], [], rfl, rfl, List.prefix_rfl, by simp [Lexeme.isSolid]⟩
  | case2 => cases h
  | case3 here c cs slice hcut ih =>
      rcases mem_tokens_push.mp h with ⟨l, hl, rfl⟩ | hrest
      · have hcovers := covers_of_cut hcut hl
        have hprefix : l.spelling <+: c :: cs :=
          (spelling_prefix_of_covers hcovers).trans ⟨slice.rest, cut_eq hcut⟩
        exact ⟨[], c :: cs, rfl, rfl, hprefix, isLineBoundary_of_mem_spelling hcovers⟩
      · obtain ⟨before, after, htext, hplace, hspelling⟩ := ih hrest
        refine ⟨slice.text ++ before, after, ?_, ?_, hspelling⟩
        · rw [List.append_assoc, ← htext, cut_eq hcut]
        · rw [hplace, Location.advance_append]

/-- **A word or mark is found in the line of its place, at its column.** -/
theorem spelling_prefix_line {file source : String} {t : Token}
    (h : t ∈ (scan file source).tokens) (hsolid : t.lexeme.isSolid = true) :
    ∃ line, Source.physicalLine? source t.location.line = some line ∧ 1 ≤ t.location.column ∧
      t.lexeme.spelling <+: line.toList.drop (t.location.column - 1).toNat ∧
      ∀ c ∈ t.lexeme.spelling, Source.isLineBoundary c = false := by
  obtain ⟨before, after, htext, hplace, hspelling, hsmooth⟩ := exists_split_of_mem_scanFrom h
  rw [Location.start_advance] at hplace
  have hline : t.location.line = 1 + before.count '\n' := by rw [hplace]
  have hcolumn : t.location.column = 1 + (Source.lastLine before).length := by rw [hplace]
  have hfeed : ∀ c ∈ t.lexeme.spelling, (c != '\n') = true := by
    intro c hc
    have hnot := hsmooth hsolid c hc
    simp only [Source.isLineBoundary, Bool.or_eq_false_iff] at hnot
    simp_all
  refine ⟨String.ofList (Source.lastLine before ++ after.takeWhile (· != '\n')), ?_, ?_, ?_,
    hsmooth hsolid⟩
  · rw [hline]
    exact Source.physicalLine?_of_split htext
  · omega
  · have hindex : (t.location.column - 1).toNat = (Source.lastLine before).length := by omega
    obtain ⟨rest, hrest⟩ := hspelling
    rw [String.toList_ofList, hindex, List.drop_left, ← hrest,
      List.takeWhile_append_of_pos hfeed]
    exact List.prefix_append _ _

end Token

end MacroAsm
