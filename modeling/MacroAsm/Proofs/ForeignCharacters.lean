import MacroAsm.Program
import MacroAsm.Proofs.Slices

/-!
# MacroAsm.Proofs.ForeignCharacters

A scan stops at the first character that fits nowhere, and only there.  Whether a character fits
can be told from its line alone: in a comment everything does, a `!` has to open a call, and
anything else has to be a character of blanks, words or marks.

* `Source.ForeignAt` — the character in a column of a line fits nowhere;
* `Source.Misplaced` — the same for a character between two texts;
* `Token.clean_of_cut` — what is cut off has no such character, and what follows it is not in a
  comment;
* `Token.stops_scanFrom` — so a scan stops at the first one, with the tokens of the text before;
* `scan_stops_at_foreign` — a whole source, line by line.
-/

namespace MacroAsm

open Grammar

namespace Source

/-! ## Characters that fit nowhere -/

/-- Characters of blanks, words and marks. -/
def Usable (c : Char) : Prop :=
  WordChar c ∨ c ∈ [' ', '\t', '\r', '(', ')', ',', '=', '\x7b', '\x7d', '!']

instance : DecidablePred Usable := fun c =>
  inferInstanceAs (Decidable
    (WordChar c ∨ c ∈ [' ', '\t', '\r', '(', ')', ',', '=', '\x7b', '\x7d', '!']))

/-- The character in a column of a line, counted from zero, fits nowhere: no comment has begun,
and nothing is made of such a character or it is a `!` without a parenthesis behind it. -/
structure ForeignAt (row : List Char) (column : Nat) (c : Char) : Prop where
  here : row[column]? = some c
  uncommented : '#' ∉ row.take (column + 1)
  unfit : ¬ Usable c ∨ c = '!' ∧ row[column + 1]? ≠ some '('

/-- The character between two texts fits nowhere. -/
structure Misplaced (before : List Char) (c : Char) (after : List Char) : Prop where
  outside : '#' ∉ lastLine before
  ne_hash : c ≠ '#'
  ne_newline : c ≠ '\n'
  unfit : ¬ Usable c ∨ c = '!' ∧ after.head? ≠ some '('

/-- The line around a character tells whether it fits. -/
theorem foreignAt_iff_misplaced {before after : List Char} {c : Char} :
    ForeignAt (lastLine before ++ (c :: after).takeWhile (· != '\n')) (lastLine before).length c ↔
      Misplaced before c after := by
  by_cases hc : c = '\n'
  · subst hc
    exact ⟨fun h => by simpa using h.here, fun h => absurd rfl h.ne_newline⟩
  have hrow : (c :: after).takeWhile (· != '\n') = c :: after.takeWhile (· != '\n') := by
    simp [hc]
  have hnext : (after.takeWhile (· != '\n'))[0]? = some '(' ↔ after.head? = some '(' := by
    cases after with
    | nil => simp
    | cons d after =>
        by_cases hd : d = '\n'
        · simp [hd]
        · simp [hd]
  rw [hrow]
  constructor
  · rintro ⟨_, huncommented, hunfit⟩
    obtain ⟨houtside, hhash⟩ : '#' ∉ lastLine before ∧ '#' ≠ c := by
      simpa [List.take_length_add_append] using huncommented
    refine ⟨houtside, Ne.symm hhash, hc, ?_⟩
    simpa [List.getElem?_append_right, hnext] using hunfit
  · rintro ⟨houtside, hhash, _, hunfit⟩
    refine ⟨by simp, by simp [List.take_length_add_append, houtside, Ne.symm hhash], ?_⟩
    simpa [List.getElem?_append_right, hnext] using hunfit

theorem not_misplaced_of_usable {before after : List Char} {c : Char} (h : Usable c)
    (hc : c ≠ '!') : ¬ Misplaced before c after := by
  intro hmisplaced
  rcases hmisplaced.unfit with hunfit | ⟨hbang, _⟩
  · exact hunfit h
  · exact hc hbang

end Source

open Source

/-- What is wrong with a character that fits nowhere. -/
def Foreign.ofChar (c : Char) : Foreign := if c = '!' then .bareBang else .character c

namespace Token

/-! ## Slices -/

/-- What follows a text is not in a comment of it. -/
def Outside (before text : List Char) : Prop :=
  '#' ∈ lastLine before → ∀ c ∈ text.head?, c = '\n'

/-- No character of a slice between two texts is misplaced. -/
def Clean (before slice after : List Char) : Prop :=
  ∀ u c v, slice = u ++ c :: v → ¬ Misplaced (before ++ u) c (v ++ after)

theorem clean_nil (before after : List Char) : Clean before [] after := by
  simp [Clean]

theorem clean_singleton {before after : List Char} {c : Char} (h : ¬ Misplaced before c after) :
    Clean before [c] after := by
  intro u d v hsplit
  cases u with
  | nil =>
      obtain ⟨rfl, rfl⟩ := List.cons.inj hsplit
      simpa using h
  | cons e u => simp at hsplit

theorem Clean.append {before first second after : List Char}
    (hfirst : Clean before first (second ++ after))
    (hsecond : Clean (before ++ first) second after) : Clean before (first ++ second) after := by
  intro u c v hsplit
  rcases List.append_eq_append_iff.mp hsplit with ⟨more, rfl, rfl⟩ | ⟨more, rfl, hmore⟩
  · simpa using hsecond more c v rfl
  · cases more with
    | nil =>
        obtain rfl : c :: v = second := by simpa using hmore
        simpa using hsecond [] c v rfl
    | cons d more =>
        obtain ⟨rfl, rfl⟩ := List.cons.inj hmore
        simpa using hfirst u c more rfl

/-- Usable characters are clean, a `!` apart. -/
theorem clean_of_usable {slice : List Char} (h : ∀ c ∈ slice, Usable c ∧ c ≠ '!')
    (before after : List Char) : Clean before slice after := by
  rintro u c v rfl
  obtain ⟨husable, hbang⟩ := h c (by simp)
  exact not_misplaced_of_usable husable hbang

/-- A comment is clean up to the end of its line. -/
theorem clean_comment {body : List Char} (h : '\n' ∉ body) (before after : List Char) :
    Clean before ('#' :: body) after := by
  have hhash : '#' ∈ lastLine (before ++ ['#']) := by simp [lastLine_append]
  have hfirst : Clean before ['#'] (body ++ after) := clean_singleton fun h => h.ne_hash rfl
  refine hfirst.append ?_
  rintro u c v rfl hmisplaced
  have hu : '\n' ∉ u := fun hmem => h (by simp [hmem])
  exact hmisplaced.outside (by simp only [lastLine_append hu, List.mem_append, hhash, true_or])

/-- Usable characters begin no comment. -/
theorem Outside.usable {before slice rest : List Char} (h : Outside before (slice ++ rest))
    (hne : slice ≠ []) (husable : ∀ c ∈ slice, Usable c) : Outside (before ++ slice) rest := by
  intro hhash
  have hnewline : '\n' ∉ slice := fun hmem => absurd (husable _ hmem) (by decide)
  rw [lastLine_append hnewline, List.mem_append] at hhash
  rcases hhash with hbefore | hslice
  · obtain ⟨c, slice, rfl⟩ := List.exists_cons_of_ne_nil hne
    obtain rfl := h hbefore c (by simp)
    simp at hnewline
  · exact absurd (husable _ hslice) (by decide)

theorem usable_of_mark (m : Mark) : ∀ c ∈ m.spelling.toList, Usable c := by
  cases m <;> simp [Mark.spelling, Usable]

/-- Marks are clean: the `!` that opens a call has its parenthesis. -/
theorem clean_mark (m : Mark) (before after : List Char) :
    Clean before m.spelling.toList after := by
  by_cases hm : m = .callOpen
  · subst hm
    have hbang : ¬ Misplaced before '!' ('(' :: after) := fun h => by
      rcases h.unfit with hunfit | ⟨_, hparen⟩
      · exact hunfit (by decide)
      · simp at hparen
    have hparen : ¬ Misplaced (before ++ ['!']) '(' after :=
      not_misplaced_of_usable (by decide) (by decide)
    exact (clean_singleton hbang).append (clean_singleton hparen)
  · refine clean_of_usable (fun c hc => ⟨usable_of_mark m c hc, ?_⟩) before after
    rintro rfl
    cases m <;> simp [Mark.spelling] at hc hm

/-- **What is cut off has no misplaced character**, and leads out of any comment. -/
theorem clean_of_cut {before cs : List Char} {c : Char} {s : Slice} (h : cut c cs = .ok s)
    (hout : Outside before (c :: cs)) :
    Clean before s.text s.rest ∧ Outside (before ++ s.text) s.rest := by
  have hne := text_ne_nil_of_cut h
  rw [← cut_eq h] at hout
  rcases cut_cases h with ⟨hblank, rfl⟩ | ⟨l, _, hcovers⟩
  · have husable : ∀ d ∈ [c], Usable d ∧ d ≠ '!' := by
      rcases isBlank_iff.mp hblank with rfl | rfl | rfl <;> simp [Usable]
    exact ⟨clean_of_usable husable _ _, hout.usable hne fun d hd => (husable d hd).1⟩
  · cases l with
    | newline =>
        have htext : s.text = ['\n'] := hcovers
        rw [htext]
        refine ⟨clean_singleton fun h => h.ne_newline rfl, fun hhash => ?_⟩
        simp [lastLine_concat_newline] at hhash
    | endOfInput => cases hcovers
    | word text =>
        obtain ⟨htext, hword, _⟩ := hcovers
        have husable : ∀ d ∈ s.text, Usable d ∧ d ≠ '!' := by
          intro d hd
          have hchar : WordChar d := hword.2 d (htext ▸ hd)
          refine ⟨.inl hchar, ?_⟩
          rintro rfl
          exact absurd hchar (by decide)
        exact ⟨clean_of_usable husable _ _, hout.usable hne fun d hd => (husable d hd).1⟩
    | comment text =>
        obtain ⟨⟨returns, hreturns, htext⟩, ⟨hline, _⟩, hrest⟩ := hcovers
        rw [htext]
        exact ⟨clean_comment (newline_notMem_append hline hreturns) _ _, fun _ => hrest⟩
    | mark m text =>
        obtain ⟨rfl, htext⟩ := hcovers
        rw [htext] at hout hne ⊢
        exact ⟨clean_mark m _ _, hout.usable hne (usable_of_mark m)⟩

/-- **Where nothing can be cut off, there is a misplaced character.** -/
theorem misplaced_of_cut {before cs : List Char} {c : Char} {foreign : Foreign}
    (h : cut c cs = .error foreign) (hout : Outside before (c :: cs)) :
    Misplaced before c cs ∧ foreign = .ofChar c := by
  obtain ⟨hblank, hnewline, hhash, hchar, hlast⟩ := cut_error_cases h
  have houtside : '#' ∉ lastLine before := fun hmem => hnewline (hout hmem c rfl)
  rcases hlast with ⟨rfl, hparen, rfl⟩ | ⟨hbang, hmark, rfl⟩
  · exact ⟨⟨houtside, hhash, hnewline, .inr ⟨rfl, hparen⟩⟩, rfl⟩
  · refine ⟨⟨houtside, hhash, hnewline, .inl ?_⟩, by simp [Foreign.ofChar, hbang]⟩
    rintro (hword | hmem)
    · exact isChar_eq_false_iff.mp hchar hword
    · simp only [List.mem_cons, List.not_mem_nil, or_false] at hmem
      rcases hmem with rfl | rfl | rfl | rfl | rfl | rfl | rfl | rfl | rfl | rfl
      all_goals simp_all [isBlank, mark?]

/-! ## Scans -/

theorem Scan.push_append (here : Location) (lexeme : Option Lexeme) (scan : Scan)
    (ts : List Token) :
    Scan.push here lexeme ⟨scan.tokens ++ ts, none⟩ =
      ⟨(scan.push here lexeme).tokens ++ ts, none⟩ := by
  cases lexeme <;> rfl

/-- How a scan of a text behind `before` ends: with a text that has no misplaced character, or at
the first one, and then the tokens are those of the text before it. -/
inductive Stops (before : List Char) (here : Location) (text : List Char) (scan : Scan) : Prop
  | never : scan.stop = none → Clean before text [] → Stops before here text scan
  | first (u : List Char) (c : Char) (v : List Char) : text = u ++ c :: v →
      Clean before u (c :: v) → Misplaced (before ++ u) c v →
      scan.stop = some (here.advance u, Foreign.ofChar c) →
      scanFrom here u = ⟨scan.tokens ++ [⟨.endOfInput, here.advance u⟩], none⟩ →
      Stops before here text scan

/-- **A scan stops at the first misplaced character.** -/
theorem stops_scanFrom {before text : List Char} (h : Outside before text) (here : Location) :
    Stops before here text (scanFrom here text) := by
  fun_induction scanFrom here text generalizing before with
  | case1 here => exact .never rfl (clean_nil before [])
  | case2 here c cs foreign hcut =>
      obtain ⟨hmisplaced, rfl⟩ := misplaced_of_cut hcut h
      refine .first [] c cs rfl (clean_nil before _) (by simpa using hmisplaced) rfl ?_
      simp [scanFrom]
  | case3 here c cs s hcut ih =>
      obtain ⟨hclean, hout⟩ := clean_of_cut hcut h
      have htext := cut_eq hcut
      cases ih hout with
      | never hstop hrest =>
          rw [← htext]
          rw [← List.append_nil s.rest] at hclean
          exact .never (by rw [Scan.stop_push, hstop]) (hclean.append hrest)
      | first u d v hsplit hrest hmisplaced hstop hscan =>
          rw [hsplit] at hclean
          refine .first (s.text ++ u) d v ?_ (hclean.append hrest) (by simpa using hmisplaced) ?_ ?_
          · simp [← htext, hsplit]
          · rw [Scan.stop_push, hstop, Location.advance_append]
          · -- the text before the character is cut in the same way, since it starts in the same way
            have hhead : ∀ e ∈ u.head?, e ∈ s.rest.head? ∨ e = '\n' := by
              rw [hsplit]
              cases u <;> simp
            rw [scanFrom_of_cut_of_head? hcut hhead, hscan, Location.advance_append]
            exact Scan.push_append here s.lexeme _ _

end Token

/-! ## Line by line -/

/-- A character that fits nowhere in its line is misplaced in the text. -/
theorem exists_misplaced_of_foreignAt {text row : List Char} {i column : Nat} {c : Char}
    (hrow : (physicalLines text)[i]? = some row) (h : ForeignAt row column c) :
    ∃ before after, text = before ++ c :: after ∧ before.count '\n' = i ∧
      (lastLine before).length = column ∧ Misplaced before c after := by
  obtain ⟨before, after, rfl, rfl, rfl⟩ := exists_split_of_line hrow h.here
  rw [getElem?_physicalLines] at hrow
  obtain rfl := Option.some.inj hrow
  exact ⟨before, after, rfl, rfl, rfl, foreignAt_iff_misplaced.mp h⟩

/-- A longer text ends further down, or further right in the same line. -/
theorem lines_le_of_prefix {u w : List Char} (h : u <+: w) :
    u.count '\n' < w.count '\n' ∨
      u.count '\n' = w.count '\n' ∧ (lastLine u).length ≤ (lastLine w).length := by
  obtain ⟨more, rfl⟩ := h
  by_cases hmore : '\n' ∈ more
  · have hpos := List.count_pos_iff.mpr hmore
    left
    simp only [List.count_append]
    omega
  · right
    simp [lastLine_append hmore, List.count_eq_zero.mpr hmore]

namespace Token

/-- No misplaced character comes before one that has only clean text before it. -/
theorem Clean.prefix_of_misplaced {u v u' v' : List Char} {c c' : Char}
    (h : Clean [] u (c :: v)) (hsplit : u ++ c :: v = u' ++ c' :: v')
    (hmisplaced : Misplaced u' c' v') : u <+: u' := by
  rcases List.append_eq_append_iff.mp hsplit with ⟨more, rfl, _⟩ | ⟨more, rfl, hmore⟩
  · exact List.prefix_append u more
  · cases more with
    | nil => simp
    | cons d more =>
        obtain ⟨rfl, rfl⟩ := List.cons.inj hmore
        exact absurd hmisplaced (by simpa using h u' c' more rfl)

end Token

/-- The line that is shown goes from where the scan last started a line to the next line feed. -/
theorem sourceLine_ofForeign {file source : String} {place : Location} {foreign : Foreign}
    (h : (Token.scan file source).stop = some (place, foreign)) :
    ∃ before after, source.toList = before ++ after ∧ place = .behind file before ∧
      (Diagnostic.ofForeign source place foreign).sourceLine =
        some (lineFrom source (Position.behind before).lineStart) := by
  have hout : Token.Outside [] source.toList := by simp [Token.Outside, lastLine]
  cases Token.stops_scanFrom hout (.start file) with
  | never hstop =>
      have hnone : (Token.scan file source).stop = none := hstop
      simp [hnone] at h
  | first before c after htext _ _ hstop =>
      rw [Location.start_advance_eq_behind] at hstop
      obtain ⟨rfl, rfl⟩ := Prod.mk.inj (Option.some.inj (hstop.symm.trans h))
      exact ⟨before, c :: after, htext, rfl, physicalLine?_eq_lineFrom htext⟩

/-- **A scan stops at the first character that fits nowhere, and only there.**  The source is
divided into lines at line feeds only.  A scan stops if and only if some line has such a
character.  Then it stops at the first one: that is the place of the error, its line is the one
that is shown, and the tokens are those of the source cut off before the character. -/
theorem scan_stops_at_foreign (file source : String) :
    let lines := physicalLines source.toList
    let scan := Token.scan file source
    ((∃ place foreign, scan.stop = some (place, foreign)) ↔
      ∃ row ∈ lines, ∃ column c, ForeignAt row column c) ∧
    ∀ place foreign, scan.stop = some (place, foreign) →
      ∃ (i : Nat) (row : List Char) (column : Nat) (c : Char),
        lines[i]? = some row ∧ ForeignAt row column c ∧
        (∀ i' row' column' c', lines[i']? = some row' → ForeignAt row' column' c' →
          i < i' ∨ i = i' ∧ column ≤ column') ∧
        (Diagnostic.ofForeign source place foreign).location = some ⟨file, i + 1, column + 1⟩ ∧
        (Diagnostic.ofForeign source place foreign).sourceLine = some (String.ofList row) ∧
        foreign = Foreign.ofChar c ∧
        ∃ before after, source.toList = before ++ c :: after ∧ place = .behind file before ∧
          Token.scan file (String.ofList before) =
            ⟨scan.tokens ++ [⟨.endOfInput, place⟩], none⟩ ∧
          ∀ t ∈ scan.tokens, t.lexeme ≠ .endOfInput := by
  intro lines scan
  have hout : Token.Outside [] source.toList := by simp [Token.Outside, lastLine]
  cases Token.stops_scanFrom hout (.start file) with
  | never hstop hclean =>
      have hnone : scan.stop = none := hstop
      refine ⟨⟨by simp [hnone], ?_⟩, by simp [hnone]⟩
      rintro ⟨row, hrow, column, c, hforeign⟩
      obtain ⟨i, hi⟩ := List.mem_iff_getElem?.mp hrow
      obtain ⟨before, after, htext, _, _, hmisplaced⟩ := exists_misplaced_of_foreignAt hi hforeign
      exact absurd hmisplaced (by simpa using hclean before c after htext)
  | first before c after htext hclean hmisplaced hstop hscan =>
      rw [Location.start_advance_eq_behind] at hstop hscan
      have hsome : scan.stop = some (.behind file before, Foreign.ofChar c) := hstop
      have hrow : lines[before.count '\n']? =
          some (lastLine before ++ (c :: after).takeWhile (· != '\n')) := by
        rw [← getElem?_physicalLines, ← htext]
      have hforeign := foreignAt_iff_misplaced.mpr hmisplaced
      refine ⟨⟨fun _ => ⟨_, List.mem_of_getElem? hrow, _, c, hforeign⟩, fun _ => ⟨_, _, hsome⟩⟩, ?_⟩
      intro place foreign hplace
      obtain ⟨rfl, rfl⟩ : Location.behind file before = place ∧ Foreign.ofChar c = foreign := by
        simpa [hsome] using hplace
      refine ⟨_, _, _, c, hrow, hforeign, ?_, ?_, Source.physicalLine?_of_split htext, rfl,
        before, after, htext, rfl, ?_, ?_⟩
      · intro i' row' column' c' hrow' hforeign'
        obtain ⟨before', after', htext', rfl, rfl, hmisplaced'⟩ :=
          exists_misplaced_of_foreignAt hrow' hforeign'
        exact lines_le_of_prefix
          (hclean.prefix_of_misplaced (htext.symm.trans htext') hmisplaced')
      · simp [Diagnostic.ofForeign, Diagnostic.ofFault, Location.behind, Int.add_comm]
      · rw [Token.scan, String.toList_ofList, hscan]
        rfl
      · obtain ⟨ts, stop, htokens, hend⟩ := Token.exists_of_scanFrom hscan
        obtain ⟨rfl, _⟩ := List.append_inj' htokens rfl
        exact hend

/-- A `;` in a comment fits, and a `!` without a parenthesis does not. -/
theorem scan_stops_at_bang :
    let source := "# ;\nx!;"
    (Token.scan "f" source).stop = some (⟨"f", 2, 2⟩, .bareBang) ∧
      ∃ row, (physicalLines source.toList)[1]? = some row ∧ ForeignAt row 1 '!' ∧
        (Diagnostic.ofForeign source ⟨"f", 2, 2⟩ .bareBang).sourceLine =
          some (String.ofList row) := by
  intro source
  have hstop : (Token.scan "f" source).stop = some (⟨"f", 2, 2⟩, .bareBang) := by decide +kernel
  obtain ⟨i, row, column, c, hrow, hforeign, _, hplace, hline, hc, _⟩ :=
    (scan_stops_at_foreign "f" source).2 _ _ hstop
  obtain ⟨hi, hcolumn⟩ : (2 : Int) = i + 1 ∧ (2 : Int) = column + 1 := by
    simpa [Diagnostic.ofForeign, Diagnostic.ofFault] using hplace
  obtain rfl : i = 1 := by omega
  obtain rfl : column = 1 := by omega
  obtain rfl : c = '!' := by
    by_contra hne
    simp [Foreign.ofChar, hne] at hc
  exact ⟨hstop, row, hrow, hforeign, hline⟩

end MacroAsm
