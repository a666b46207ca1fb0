import MacroAsm.Proofs.Places

/-!
# MacroAsm.Proofs.Quoting

The source line that a diagnostic quotes.  Places count physical lines.  A character that
fits nowhere is quoted from its physical line, but a token that fits nowhere is quoted from
the visual line of the same number, and the two part ways where a display breaks lines that
do not end.

* `Source.Legible` — nothing up to the end of a line breaks on display but the ends of
  lines;
* `Source.visualLines_of_legible` — then the visual line of that number is the physical one,
  carriage returns at its end aside;
* `quoted_line_of_legible` — so the line that is quoted has the token at the column that the
  caret points to;
* `quoted_line_of_formFeed` — a source that is not legible, and its misquoted line.
-/

namespace MacroAsm

open Program

namespace Source

/-! ## Lines as they are displayed -/

/-- A physical line without the carriage return of a CR LF. -/
def shown (line : List Char) : List Char :=
  if line.getLast? = some '\r' then line.dropLast else line

/-- A physical line that a display breaks nowhere but at its end. -/
def Unbroken (line : List Char) : Prop := ∀ c ∈ shown line, isLineBoundary c = false

instance : DecidablePred Unbroken := fun line =>
  inferInstanceAs (Decidable (∀ c ∈ shown line, isLineBoundary c = false))

/-- The physical line with a number can be told by counting visual lines: those before it are
unbroken, and it is itself but for carriage returns at its end. -/
structure Legible (text : List Char) (number : Nat) : Prop where
  before : ∀ line ∈ (physicalLines text).take (number - 1), Unbroken line
  here : ∀ line ∈ (physicalLines text)[number - 1]?,
    ∀ c ∈ Token.dropReturns line, isLineBoundary c = false

theorem visualLinesFrom_nil (line : List Char) :
    visualLinesFrom line [] = if line.isEmpty then [] else [line.reverse] := rfl

theorem visualLinesFrom_newline (line rest : List Char) :
    visualLinesFrom line ('\n' :: rest) = line.reverse :: visualLinesFrom [] rest := rfl

theorem visualLinesFrom_return_newline (line rest : List Char) :
    visualLinesFrom line ('\r' :: '\n' :: rest) = line.reverse :: visualLinesFrom [] rest := rfl

theorem visualLinesFrom_formFeed (line rest : List Char) :
    visualLinesFrom line ('\x0c' :: rest) = line.reverse :: visualLinesFrom [] rest := rfl

theorem visualLinesFrom_return (line : List Char) :
    visualLinesFrom line ['\r'] = [line.reverse] := rfl

theorem visualLinesFrom_cons {c : Char} (hc : isLineBoundary c = false) (line rest : List Char) :
    visualLinesFrom line (c :: rest) = visualLinesFrom (c :: line) rest := by
  conv_lhs => unfold visualLinesFrom
  split
  · simp_all
  · rename_i heq
    obtain ⟨rfl, _⟩ := List.cons.inj heq
    exact absurd hc (by decide)
  · rename_i heq
    obtain ⟨rfl, rfl⟩ := List.cons.inj heq
    simp [hc]

/-- A carriage return ends the current line, whatever follows. -/
theorem exists_visualLinesFrom_return (line rest : List Char) :
    ∃ lines, visualLinesFrom line ('\r' :: rest) = line.reverse :: lines := by
  conv in visualLinesFrom _ _ => unfold visualLinesFrom
  split
  · simp_all
  · exact ⟨_, rfl⟩
  · rename_i heq
    obtain ⟨rfl, rfl⟩ := List.cons.inj heq
    exact ⟨_, if_pos (by decide)⟩

/-- Characters that break no line stand in the current one. -/
theorem visualLinesFrom_append {body : List Char} (h : ∀ c ∈ body, isLineBoundary c = false)
    (line rest : List Char) :
    visualLinesFrom line (body ++ rest) = visualLinesFrom (body.reverse ++ line) rest := by
  induction body generalizing line with
  | nil => rfl
  | cons c body ih =>
      have hc := h c List.mem_cons_self
      have hbody : ∀ d ∈ body, isLineBoundary d = false :=
        fun d hd => h d (List.mem_cons_of_mem c hd)
      rw [List.cons_append, visualLinesFrom_cons hc, ih hbody]
      simp

theorem eq_shown_or (line : List Char) : line = shown line ∨ line = shown line ++ ['\r'] := by
  unfold shown
  by_cases hlast : line.getLast? = some '\r'
  · rw [if_pos hlast]
    exact .inr (List.dropLast_append_getLast? '\r' hlast).symm
  · rw [if_neg hlast]
    exact .inl rfl

/-- An unbroken line is displayed as one line. -/
theorem visualLinesFrom_unbroken {line : List Char} (h : Unbroken line) (rest : List Char) :
    visualLinesFrom [] (line ++ '\n' :: rest) = shown line :: visualLinesFrom [] rest := by
  have hshown := visualLinesFrom_append h []
  rcases eq_shown_or line with hline | hline
  · have hfirst := hshown ('\n' :: rest)
    rw [visualLinesFrom_newline, ← hline] at hfirst
    simpa [← hline] using hfirst
  · have hfirst := hshown ('\r' :: '\n' :: rest)
    rw [visualLinesFrom_return_newline, List.append_cons, ← hline] at hfirst
    simpa using hfirst

/-- So is an unbroken line at the end of a text, unless there is nothing in it. -/
theorem length_visualLinesFrom_unbroken {line : List Char} (h : Unbroken line) :
    (visualLinesFrom [] line).length ≤ 1 := by
  have hshown := visualLinesFrom_append h []
  rcases eq_shown_or line with hline | hline
  · have hlast := hshown []
    rw [List.append_nil, ← hline] at hlast
    rw [hlast, visualLinesFrom_nil]
    split <;> simp
  · have hlast := hshown ['\r']
    rw [← hline, visualLinesFrom_return] at hlast
    simp [hlast]

/-! ## Counting visual lines -/

/-- A text is a single physical line, or its first one ends at a line feed. -/
theorem physicalLines_cases (text : List Char) :
    physicalLines text = [text] ∨
      ∃ first rest, text = first ++ '\n' :: rest ∧
        physicalLines text = first :: physicalLines rest := by
  induction text with
  | nil => exact .inl rfl
  | cons c text ih =>
      by_cases hc : c = '\n'
      · subst hc
        exact .inr ⟨[], text, rfl, rfl⟩
      · rcases ih with hone | ⟨first, rest, rfl, hlines⟩
        · exact .inl (physicalLines_cons hc hone)
        · exact .inr ⟨c :: first, rest, rfl, physicalLines_cons hc hlines⟩

/-- Carriage returns at the end of a line that is otherwise unbroken are not displayed. -/
theorem eq_dropReturns_of_head?_visualLinesFrom {line rest v : List Char}
    (h : ∀ c ∈ Token.dropReturns line, isLineBoundary c = false)
    (hrest : rest = [] ∨ ∃ more, rest = '\n' :: more)
    (hv : (visualLinesFrom [] (line ++ rest)).head? = some v) : v = Token.dropReturns line := by
  have hsplit : Token.dropReturns line ++ line.rtakeWhile (· == '\r') = line :=
    List.rdropWhile_append_rtakeWhile
  have hreturns : ∀ c ∈ line.rtakeWhile (· == '\r'), c = '\r' :=
    fun c hc => by simpa using List.mem_rtakeWhile_imp hc
  rw [← hsplit, List.append_assoc, visualLinesFrom_append h, List.append_nil] at hv
  generalize line.rtakeWhile (· == '\r') = returns at hreturns hv
  generalize Token.dropReturns line = body at hv
  cases returns with
  | cons c returns =>
      obtain rfl := hreturns c List.mem_cons_self
      obtain ⟨lines, hlines⟩ := exists_visualLinesFrom_return body.reverse (returns ++ rest)
      rw [List.cons_append, hlines] at hv
      simpa using hv.symm
  | nil =>
      rcases hrest with rfl | ⟨more, rfl⟩
      · rw [List.append_nil, visualLinesFrom_nil] at hv
        split at hv
        · cases hv
        · simpa using hv.symm
      · rw [List.nil_append, visualLinesFrom_newline] at hv
        simpa using hv.symm

/-- **The visual line of a number** is the physical one, carriage returns at its end aside, if
nothing else is in the way. -/
theorem visualLines_of_legible {text v : List Char} {i : Nat} (h : Legible text (i + 1))
    (hv : (visualLinesFrom [] text)[i]? = some v) :
    ∃ line, (physicalLines text)[i]? = some line ∧ v = Token.dropReturns line := by
  induction i generalizing text with
  | zero =>
      have hhere := h.here
      rw [← List.head?_eq_getElem?] at hv
      rcases physicalLines_cases text with hlines | ⟨first, rest, rfl, hlines⟩
      · rw [hlines] at hhere ⊢
        refine ⟨text, rfl, eq_dropReturns_of_head?_visualLinesFrom (hhere text rfl) (.inl rfl) ?_⟩
        rwa [List.append_nil]
      · rw [hlines] at hhere ⊢
        exact ⟨first, rfl,
          eq_dropReturns_of_head?_visualLinesFrom (hhere first rfl) (.inr ⟨rest, rfl⟩) hv⟩
  | succ i ih =>
      obtain ⟨hbefore, hhere⟩ := h
      rcases physicalLines_cases text with hlines | ⟨first, rest, rfl, hlines⟩
      · -- there is no such line
        have hone : Unbroken text := hbefore text (by simp [hlines])
        have hlength := length_visualLinesFrom_unbroken hone
        have hindex := (List.getElem?_eq_some_iff.mp hv).1
        omega
      · have hfirst : Unbroken first := hbefore first (by simp [hlines])
        rw [visualLinesFrom_unbroken hfirst, List.getElem?_cons_succ] at hv
        rw [hlines] at hbefore hhere ⊢
        refine ih ⟨fun line hline => hbefore line ?_, hhere⟩ hv
        simp_all

/-- The same for texts and numbers as diagnostics have them. -/
theorem visualLine?_of_legible {source line : String} {number : Int}
    (h : Legible source.toList number.toNat) (hline : visualLine? source number = some line) :
    ∃ returns, (∀ c ∈ returns, c = '\r') ∧
      physicalLine? source number = some (String.ofList (line.toList ++ returns)) := by
  unfold visualLine? at hline
  by_cases hnumber : number < 1
  · rw [if_pos hnumber] at hline
    cases hline
  · obtain ⟨i, rfl⟩ : ∃ i : Nat, number = i + 1 := ⟨(number - 1).toNat, by omega⟩
    have hindex : ((i + 1 : Int) - 1).toNat = i := by omega
    have hsucc : (i + 1 : Int).toNat = i + 1 := by omega
    rw [hsucc] at h
    rw [if_neg hnumber, hindex, visualLines, List.getElem?_map, Option.map_eq_some_iff] at hline
    obtain ⟨v, hv, rfl⟩ := hline
    obtain ⟨physical, hphysical, rfl⟩ := visualLines_of_legible h hv
    have hsplit : Token.dropReturns physical ++ physical.rtakeWhile (· == '\r') = physical :=
      List.rdropWhile_append_rtakeWhile
    refine ⟨physical.rtakeWhile (· == '\r'), fun c hc => ?_, ?_⟩
    · simpa using List.mem_rtakeWhile_imp hc
    · rw [physicalLine?, if_neg hnumber, hindex, hphysical, String.toList_ofList, hsplit]
      rfl

end Source

/-! ## Diagnostics of texts that cannot be read -/

/-- What can be seen in a line is also seen if carriage returns at its end are left out. -/
theorem prefix_drop_of_append_returns {spelling line returns : List Char} {k : Nat}
    (h : spelling <+: (line ++ returns).drop k) (hreturns : ∀ c ∈ returns, c = '\r')
    (hspelling : '\r' ∉ spelling) : spelling <+: line.drop k := by
  rw [List.drop_append] at h
  obtain ⟨rest, hrest⟩ := h
  rcases List.append_eq_append_iff.mp hrest with ⟨more, hline, _⟩ | ⟨more, rfl, hdrop⟩
  · exact ⟨more, hline.symm⟩
  · have hmore : more = [] := by
      refine List.eq_nil_iff_forall_not_mem.mpr fun c hc => ?_
      have hmem : c ∈ returns.drop (k - line.length) := hdrop ▸ List.mem_append_left rest hc
      have hreturn := hreturns c (List.mem_of_mem_drop hmem)
      exact hspelling (hreturn ▸ List.mem_append_right _ hc)
    simp [hmore]

/-- A diagnostic quotes the physical line of its place, but for carriage returns at its end. -/
theorem exists_place_quoted {file source : String} {d : Diagnostic}
    (h : (ofSource file source).outcome = .error d) :
    ∃ place, d.location = some place ∧ ∀ line, d.sourceLine = some line →
      ((Token.scan file source).stop = none →
        Source.Legible source.toList place.line.toNat) →
      ∃ returns, (∀ c ∈ returns, c = '\r') ∧
        Source.physicalLine? source place.line =
          some (String.ofList (line.toList ++ returns)) := by
  rcases ofSource_eq_error_cases h with ⟨place, foreign, hstop, rfl⟩ | ⟨tokens, halt, hscan, _, rfl⟩
  · -- a character is quoted in its physical line to begin with
    refine ⟨place, rfl, fun line hline _ => ⟨[], by simp, ?_⟩⟩
    rw [List.append_nil, String.ofList_toList]
    exact hline
  · refine ⟨halt.location, rfl, fun line hline hlegible => ?_⟩
    exact Source.visualLine?_of_legible (hlegible (by rw [hscan])) hline

/-- **Diagnostics quote the line they point to**, carriage returns at its end aside: always if
they are about a character, and if the source is legible up to there if they are about a
token.  A word or mark at that place is then found in the quoted line, at the column of the
place, and right above the caret. -/
theorem quoted_line_of_legible {file source : String} {d : Diagnostic}
    (h : (ofSource file source).outcome = .error d) :
    ∃ place, d.location = some place ∧ ∀ line, d.sourceLine = some line →
      ((Token.scan file source).stop = none →
        Source.Legible source.toList place.line.toNat) →
      (∃ returns, (∀ c ∈ returns, c = '\r') ∧
        Source.physicalLine? source place.line =
          some (String.ofList (line.toList ++ returns))) ∧
      ∀ t ∈ (Token.scan file source).tokens, t.location = place → t.lexeme.isSolid = true →
        t.lexeme.spelling <+: line.toList.drop (place.column - 1).toNat ∧
        ∃ indent, d.text = "\n".intercalate (d.headline :: ("    " ++ line) ::
            String.ofList (List.replicate indent ' ' ++ ['^']) :: d.advice) ∧
          t.lexeme.spelling <+: ("    " ++ line).toList.drop indent := by
  obtain ⟨place, hlocation, hquoted⟩ := exists_place_quoted h
  refine ⟨place, hlocation, fun line hline hlegible => ?_⟩
  obtain ⟨returns, hreturns, hphysical⟩ := hquoted line hline hlegible
  refine ⟨⟨returns, hreturns, hphysical⟩, fun t ht hthere hsolid => ?_⟩
  obtain ⟨found, hfound, hcolumn, hprefix, hsmooth⟩ := Token.spelling_prefix_line ht hsolid
  rw [hthere] at hfound hcolumn hprefix
  obtain rfl := Option.some.inj (hfound.symm.trans hphysical)
  have hspelling : '\r' ∉ t.lexeme.spelling := fun hreturn => by
    exact absurd (hsmooth '\r' hreturn) (by decide)
  rw [String.toList_ofList] at hprefix
  have hshown := prefix_drop_of_append_returns hprefix hreturns hspelling
  refine ⟨hshown, 3 + place.column.toNat, ?_, ?_⟩
  · have hpositive : 0 < place.column := by omega
    simp [Diagnostic.text, Diagnostic.excerpt, hline, hlocation, hpositive]
  · have hindent : 3 + place.column.toNat = "    ".toList.length + (place.column - 1).toNat := by
      have hlength : "    ".toList.length = 4 := rfl
      omega
    rw [String.toList_append, hindent, List.drop_length_add_append]
    exact hshown

/-- Tokens of a comment, and of a line with a word in the place of an opcode. -/
def slipTokens (text : String) (column : Int) : List Token :=
  [⟨.comment text, ⟨"f", 1, 1⟩⟩, ⟨.newline, ⟨"f", 1, column⟩⟩, ⟨.word "x", ⟨"f", 2, 1⟩⟩,
   ⟨.word "y", ⟨"f", 2, 3⟩⟩, ⟨.newline, ⟨"f", 2, 4⟩⟩]

theorem read_slipTokens (text : String) (column : Int) (stop : Location) :
    (Reader.read ⟨slipTokens text column, stop⟩).outcome =
      .error ⟨.badOpcode "x" "y", ⟨"f", 2, 3⟩⟩ := by
  have hx : Opcode.ofWord? "x" = none := by decide
  have hy : Opcode.ofWord? "y" = none := by decide
  have hlabel : Word.isLabel "x" = true := by decide
  have hfront : Reader.front stop (slipTokens text column).tail =
      .error ⟨.badOpcode "x" "y", ⟨"f", 2, 3⟩⟩ := by
    simp [slipTokens, Reader.front, Reader.skipNewlines, Reader.instruction, hx, hy, hlabel,
      Except.map]
  rw [Reader.read, slipTokens, Reader.build_item rfl]
  exact congrArg Reader.Reading.outcome (Reader.build_error hfront)

theorem ofSource_slipTokens {source text : String} {column : Int} {stop : Location}
    (hscan : Token.scan "f" source =
      ⟨slipTokens text column ++ [⟨.endOfInput, stop⟩], none⟩) :
    (ofSource "f" source).outcome = .error (.ofFault (.badOpcode "x" "y") ⟨"f", 2, 3⟩
      (Source.visualLine? source 2)) := by
  have hinput : Reader.Input.ofTokens "f" (slipTokens text column ++ [⟨.endOfInput, stop⟩]) =
      ⟨slipTokens text column, stop⟩ := rfl
  rw [outcome_ofSource hscan, ofTokens, hinput]
  dsimp only
  rw [read_slipTokens]
  rfl

/-- A source in which a line ends in CR LF, and a word that is no opcode stands in the next. -/
theorem quoted_line_of_slip :
    let source := "# a\r\nx y\n"
    ∃ d, (ofSource "f" source).outcome = .error d ∧ d.sourceLine = some "x y" ∧
      Source.Legible source.toList 2 ∧
      ∃ indent, d.text = "\n".intercalate [d.headline, "    x y",
          String.ofList (List.replicate indent ' ' ++ ['^']), "hint: " ++ d.hint.getD ""] ∧
        ['y'] <+: "    x y".toList.drop indent := by
  intro source
  have hscan : Token.scan "f" source =
      ⟨slipTokens " a" 5 ++ [⟨.endOfInput, ⟨"f", 3, 1⟩⟩], none⟩ := by decide +kernel
  have hvisual : Source.visualLine? source 2 = some "x y" := by
    simp [source, Source.visualLine?, Source.visualLines, Source.visualLinesFrom_cons,
      Source.visualLinesFrom_return_newline, Source.visualLinesFrom_newline,
      Source.visualLinesFrom_nil, Source.isLineBoundary]
  have herror := ofSource_slipTokens hscan
  have hlines : Source.physicalLines source.toList =
      [['#', ' ', 'a', '\r'], ['x', ' ', 'y'], []] := by decide +kernel
  have hlegible : Source.Legible source.toList 2 := by
    constructor
    · simp [hlines, Source.Unbroken, Source.shown, Source.isLineBoundary]
    · simp [hlines, Token.dropReturns, Source.isLineBoundary]
  obtain ⟨place, hplace, hquoted⟩ := quoted_line_of_legible herror
  obtain rfl := Option.some.inj hplace
  obtain ⟨_, htoken⟩ := hquoted "x y" hvisual fun _ => hlegible
  have hword : ⟨.word "y", ⟨"f", 2, 3⟩⟩ ∈ (Token.scan "f" source).tokens := by
    simp [hscan, slipTokens]
  obtain ⟨_, indent, htext, hspelling⟩ := htoken _ hword rfl rfl
  exact ⟨_, herror, hvisual, hlegible, indent, htext, hspelling⟩

/-- **A line that is broken by a form feed** makes the lines after it misquoted: the place is on
the second line, and the quotation is the rest of the first. -/
theorem quoted_line_of_formFeed :
    let source := "# a\x0cb\nx y\n"
    ∃ d, (ofSource "f" source).outcome = .error d ∧ d.location = some ⟨"f", 2, 3⟩ ∧
      d.sourceLine = some "b" ∧ Source.physicalLine? source 2 = some "x y" ∧
      ¬ ∃ returns, (∀ c ∈ returns, c = '\r') ∧
        Source.physicalLine? source 2 = some (String.ofList ("b".toList ++ returns)) := by
  intro source
  have hscan : Token.scan "f" source =
      ⟨slipTokens " a\x0cb" 6 ++ [⟨.endOfInput, ⟨"f", 3, 1⟩⟩], none⟩ := by decide +kernel
  have hphysical : Source.physicalLine? source 2 = some "x y" := by decide +kernel
  have hvisual : Source.visualLine? source 2 = some "b" := by
    simp [source, Source.visualLine?, Source.visualLines, Source.visualLinesFrom_cons,
      Source.visualLinesFrom_formFeed, Source.visualLinesFrom_newline,
      Source.visualLinesFrom_nil, Source.isLineBoundary]
  refine ⟨_, ofSource_slipTokens hscan, rfl, hvisual, hphysical, ?_⟩
  rintro ⟨returns, _, hquoted⟩
  have hline := congrArg String.toList (Option.some.inj (hphysical.symm.trans hquoted))
  simp at hline

end MacroAsm
