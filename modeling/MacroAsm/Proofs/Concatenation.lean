import MacroAsm.Proofs.Conversion
import MacroAsm.Proofs.LineEnds
import MacroAsm.Proofs.Places

/-!
# MacroAsm.Proofs.Concatenation

Texts put under each other.  A line feed separates everything: no token goes across it, and
an item that is complete before it takes nothing from the text below.

* `scanFrom_append_newline` — the tokens of both texts, a line end between them;
* `scanFrom_steady` — a text is cut in the same way wherever it starts;
* `build_stacked` — items that were read before stay in front of what is read;
* `read_append_newline` — so the tokens below are read as if they stood alone;
* `parse_lines_compose` — from source text to program, or to the reason why there is none.
-/

namespace MacroAsm

open Grammar Program

/-! ## Further down -/

namespace Location

/-- The place a number of lines further down. -/
def down (n : Nat) (here : Location) : Location := { here with line := here.line + n }

theorem steady_down (n : Nat) : Steady (down n) := by
  intro here c
  by_cases hc : c = '\n'
  · simp [next, down, hc, Int.add_right_comm]
  · simp [next, down, hc]

/-- A line feed at its end takes a text to the start of a line. -/
theorem start_advance_newline (file : String) (text : List Char) :
    (start file).advance (text ++ ['\n']) = (start file).down (text.count '\n' + 1) := by
  rw [start_advance, Source.lastLine_concat_newline]
  simp [start, down, List.count_append]

end Location

/-! ## Scanning -/

namespace Token

/-- A token that has moved. -/
def relocate (f : Location → Location) (t : Token) : Token := { t with location := f t.location }

/-- A scan that has moved. -/
def Scan.relocate (f : Location → Location) (scan : Scan) : Scan :=
  ⟨scan.tokens.map (Token.relocate f), scan.stop.map fun s => (f s.1, s.2)⟩

/-- **No token goes across a line feed**: two texts under each other give the tokens of both,
and a line end between them. -/
theorem scanFrom_append_newline {here : Location} {text : List Char} (more : List Char)
    (h : (scanFrom here text).stop = none) :
    ∃ ts, scanFrom here text = ⟨ts ++ [⟨.endOfInput, here.advance text⟩], none⟩ ∧
      scanFrom here (text ++ '\n' :: more) =
        (scanFrom (here.advance (text ++ ['\n'])) more).prepend
          (ts ++ [⟨.newline, here.advance text⟩]) := by
  fun_induction scanFrom here text with
  | case1 here =>
    refine ⟨[], rfl, ?_⟩
    exact scanFrom_newline here more
  | case2 => cases h
  | case3 here c cs slice hcut ih =>
    have hplace (below : List Char) : (here.advance slice.text).advance (slice.rest ++ below) =
        here.advance (c :: cs ++ below) := by
      rw [← Location.advance_append, ← List.append_assoc, cut_eq hcut]
    have hend : (here.advance slice.text).advance slice.rest = here.advance (c :: cs) := by
      simpa using hplace []
    have hhead : ∀ d ∈ (slice.rest ++ '\n' :: more).head?, d ∈ slice.rest.head? ∨ d = '\n' := by
      cases slice.rest <;> simp
    rw [← cut_eq hcut, List.append_assoc, scanFrom_of_cut_of_head? hcut hhead, cut_eq hcut]
    obtain ⟨lexeme, text, rest⟩ := slice
    dsimp only at ih hplace hend ⊢
    cases lexeme with
    | none =>
      obtain ⟨ts, hts, hmore⟩ := ih h
      rw [hend] at hts hmore
      rw [hplace] at hmore
      exact ⟨ts, hts, hmore⟩
    | some l =>
      obtain ⟨ts, hts, hmore⟩ := ih h
      rw [hend] at hts hmore
      rw [hplace] at hmore
      refine ⟨⟨l, here⟩ :: ts, ?_, ?_⟩
      · rw [hts]
        rfl
      · rw [hmore]
        rfl

theorem Scan.relocate_push (f : Location → Location) (here : Location) (lexeme : Option Lexeme)
    (scan : Scan) :
    (scan.push here lexeme).relocate f = (scan.relocate f).push (f here) lexeme := by
  cases lexeme <;> rfl

/-- **A text is cut in the same way wherever it starts.** -/
theorem scanFrom_steady {f : Location → Location} (hf : Location.Steady f) (here : Location)
    (text : List Char) : scanFrom (f here) text = (scanFrom here text).relocate f := by
  fun_induction scanFrom here text with
  | case1 here =>
    rw [scanFrom]
    rfl
  | case2 here c cs foreign hcut => exact scanFrom_of_foreign hcut (f here)
  | case3 here c cs slice hcut ih =>
    rw [scanFrom_of_cut hcut, ← hf.advance, ih, Scan.relocate_push]

/-- Two texts under each other, from the start of a file. -/
theorem scan_append_newline {file first : String} (second : String)
    (h : (scan file first).stop = none) :
    ∃ ts stop, scan file first = ⟨ts ++ [⟨.endOfInput, stop⟩], none⟩ ∧
      scan file (first ++ "\n" ++ second) =
        ((scan file second).relocate (Location.down (first.toList.count '\n' + 1))).prepend
          (ts ++ [⟨.newline, stop⟩]) := by
  obtain ⟨ts, hfirst, hboth⟩ := scanFrom_append_newline second.toList h
  refine ⟨ts, _, hfirst, ?_⟩
  have htext : (first ++ "\n" ++ second).toList = first.toList ++ '\n' :: second.toList := by
    simp [String.toList_append]
  rw [scan, htext, hboth, Location.start_advance_newline,
    scanFrom_steady (Location.steady_down _)]
  rfl

end Token

/-! ## Reading -/

namespace Reader

variable {stop : Location} {ts us : List Token}

/-- More items in front of all that has been read: they come before what the outermost body
that is open, or else the program itself, has so far. -/
def stacked (base : List Item) : List Frame → List Item → List Frame × List Item
  | [], items => ([], items ++ base)
  | ⟨hd, before⟩ :: frames, items =>
    let outer := stacked base frames before
    (⟨hd, outer.2⟩ :: outer.1, items)

theorem stacked_item (base : List Item) (frames : List Frame) (x : Item) (items : List Item) :
    stacked base frames (x :: items) =
      ((stacked base frames items).1, x :: (stacked base frames items).2) := by
  cases frames <;> rfl

/-- **Items that were read before stay in front**, and make no difference to what is read. -/
theorem build_stacked (stop : Location) (base : List Item) (frames : List Frame)
    (items : List Item) (ts : List Token) :
    (build stop (stacked base frames items).1 (stacked base frames items).2 ts).outcome =
      (build stop frames items ts).outcome.map (base.reverse ++ ·) := by
  fun_induction build stop frames items ts with
  | case1 frames items ts e hfront =>
    rw [build_error hfront]
    rfl
  | case2 items ts hfront =>
    rw [stacked, build_finish hfront, List.reverse_append]
    rfl
  | case3 items ts hfront frame frames =>
    rw [stacked, build_unclosed hfront]
    rfl
  | case4 items ts place rest hfront =>
    rw [stacked, build_stray hfront]
    rfl
  | case5 items ts place rest hfront hd before frames ih =>
    simp only [List.unattach_reverse, List.unattach_attach] at ih
    rw [stacked_item] at ih
    rw [stacked, build_close hfront]
    exact ih
  | case6 frames items ts x rest hfront ih =>
    rw [stacked_item] at ih
    rw [build_item hfront]
    exact ih
  | case7 frames items ts hd rest hfront ih =>
    rw [build_opening hfront]
    exact ih

/-- **Tokens under a complete program are read as if they stood alone.** -/
theorem read_append_newline {p : Program} (h : Body ts p) (place : Location) :
    (read ⟨ts ++ ⟨.newline, place⟩ :: us, stop⟩).outcome =
      (read ⟨us, stop⟩).outcome.map (p ++ ·) := by
  have hbase := build_stacked stop p.reverse [] [] us
  rw [List.reverse_reverse] at hbase
  rw [read, build_append h (apart_newline place us), build_congr (front_newline stop place us),
    List.append_nil, read]
  exact hbase

theorem moved_map_relocate (f : Location → Location) (ts : List Token) :
    Moved f (fun a b => b = f a) ts (ts.map (Token.relocate f)) := by
  induction ts with
  | nil => exact .nil
  | cons t ts ih => exact .cons ⟨rfl, rfl, fun _ => rfl⟩ ih

end Reader

/-! ## From source text to program -/

/-- A text that is read alone, and the same text under a program: its items have moved and come
after those of the program, or it is malformed for the same reason at the place that has
moved. -/
inductive Under (p : Program) (f : Location → Location) :
    Except Diagnostic Program → Except Diagnostic Program → Prop
  | ok (q : Program) : Under p f (.ok q) (.ok (p ++ Program.relocate f q))
  | error {d d' : Diagnostic} {place : Location} : d'.message = d.message →
      d.location = some place → d'.location = some (f place) → Under p f (.error d) (.error d')

/-- Tokens that have moved, under those of a program. -/
theorem under_ofTokens {p : Program} {f : Location → Location} {file : String}
    {source source' : Option String} {ts us : List Token} {stop place : Location}
    (hts : Body ts p) (hend : ∀ t ∈ ts, t.lexeme ≠ .endOfInput)
    (hend' : ∀ t ∈ us, t.lexeme ≠ .endOfInput) :
    Under p f (ofTokens file source (us ++ [⟨.endOfInput, stop⟩])).outcome
      (ofTokens file source' (ts ++ ⟨.newline, place⟩ ::
        (us.map (Token.relocate f) ++ [⟨.endOfInput, f stop⟩]))).outcome := by
  have hjoined : ∀ t ∈ ts ++ ⟨.newline, place⟩ :: us.map (Token.relocate f),
      t.lexeme ≠ .endOfInput := by
    simp only [List.mem_append, List.mem_cons, List.mem_map]
    rintro t (ht | rfl | ⟨u, hu, rfl⟩)
    · exact hend t ht
    · simp
    · exact hend' u hu
  have halike : Reader.Alike f (fun a b => b = f a) (fun q q' => q' = q.map (Item.relocate f))
      (Reader.read ⟨us, stop⟩).outcome
      (Reader.read ⟨us.map (Token.relocate f), f stop⟩).outcome :=
    Reader.alike_build rfl (Reader.moved_map_relocate f us)
  unfold ofTokens
  rw [← List.cons_append, ← List.append_assoc, Reader.ofTokens_append_end file stop hend',
    Reader.ofTokens_append_end file (f stop) hjoined]
  dsimp only
  rw [Reader.read_append_newline hts]
  generalize (Reader.read ⟨us, stop⟩).outcome = r at halike
  generalize (Reader.read ⟨us.map (Token.relocate f), f stop⟩).outcome = r' at halike
  cases halike with
  | @ok q q' hq =>
    subst hq
    rw [← Program.mapPlace_eq_map]
    exact .ok q
  | @error fault here here' hhere =>
    subst hhere
    exact .error (Fault.message_relocate f fault) rfl rfl

/-- Two texts under each other, the first of which is a program. -/
theorem under_ofSource {file first second : String} {p : Program}
    (h : (ofSource file first).outcome = .ok p) :
    Under p (Location.down (first.toList.count '\n' + 1)) (ofSource file second).outcome
      (ofSource file (first ++ "\n" ++ second)).outcome := by
  obtain ⟨ts, stop, hfirst, hts⟩ := ofSource_eq_ok_iff_body.mp h
  have hnone : (Token.scan file first).stop = none := by rw [hfirst]
  obtain ⟨ts', stop', hfirst', hboth⟩ := Token.scan_append_newline second hnone
  obtain ⟨rfl, rfl⟩ : ts = ts' ∧ stop = stop' := by
    rw [hfirst] at hfirst'
    simpa using hfirst'
  have hend : ∀ t ∈ ts, t.lexeme ≠ .endOfInput := by
    obtain ⟨ts', stop', heq, hend⟩ := Token.exists_of_scanFrom hfirst
    obtain ⟨rfl, -⟩ : ts = ts' ∧ _ := by simpa using heq
    exact hend
  cases hsecond : Token.scan file second with
  | mk tokens halt =>
    rw [hsecond] at hboth
    cases halt with
    | some halt =>
      obtain ⟨place, foreign⟩ := halt
      have hjoined : Token.scan file (first ++ "\n" ++ second) =
          ⟨_, some (place.down (first.toList.count '\n' + 1), foreign)⟩ := hboth
      simp only [ofSource, hsecond, hjoined]
      exact .error rfl rfl rfl
    | none =>
      obtain ⟨us, stop', rfl, hend'⟩ := Token.exists_of_scanFrom hsecond
      have hjoined : Token.scan file (first ++ "\n" ++ second) = ⟨ts ++ [⟨.newline, stop⟩] ++
          List.map (Token.relocate _) (us ++ [⟨.endOfInput, stop'⟩]), none⟩ := hboth
      rw [outcome_ofSource hsecond, outcome_ofSource hjoined, List.append_assoc, List.map_append,
        List.singleton_append]
      exact under_ofTokens hts hend hend'

/-- **Reading goes text by text**: a text under a program is read as if it stood alone, below
the program.  The two together can be read if and only if the lower one can; then its items
come after those of the program, and every place in them, at any depth, has moved down by the
lines of the upper text.  Otherwise the message is the same, and its place has moved down. -/
theorem parse_lines_compose (file first second : String) (p : Program)
    (h : (ofSource file first).outcome = .ok p) :
    let below := Location.down (first.toList.count '\n' + 1)
    let alone := (ofSource file second).outcome
    let joined := (ofSource file (first ++ "\n" ++ second)).outcome
    ((∃ r, joined = .ok r) ↔ ∃ q, alone = .ok q) ∧
    (∀ q, alone = .ok q → joined = .ok (p ++ Program.relocate below q)) ∧
    ∀ d, alone = .error d → ∃ d' place, joined = .error d' ∧ d'.message = d.message ∧
      d.location = some place ∧ d'.location = some (below place) := by
  intro below alone joined
  have hunder : Under p below alone joined := under_ofSource h
  generalize alone = r at hunder ⊢
  generalize joined = r' at hunder ⊢
  cases hunder with
  | ok q => simp
  | @error d d' place hmessage hplace hplace' =>
    refine ⟨by simp, by simp, ?_⟩
    rintro _ ⟨⟩
    exact ⟨d', place, rfl, hmessage, hplace, hplace'⟩

/-- A declaration that is never closed. -/
def unclosed : String := "F()=\x7b"

theorem read_unclosed : ∃ d, (ofSource "f" unclosed).outcome = .error d ∧
    d.message = "unterminated macro body, expected '\x7d'" ∧ d.location = some ⟨"f", 1, 6⟩ := by
  have hscan : Token.scan "f" unclosed = ⟨[⟨.word "F", ⟨"f", 1, 1⟩⟩,
      ⟨.mark .openParen "(", ⟨"f", 1, 2⟩⟩, ⟨.mark .closeParen ")", ⟨"f", 1, 3⟩⟩,
      ⟨.mark .equals "=", ⟨"f", 1, 4⟩⟩, ⟨.mark .openBrace "\x7b", ⟨"f", 1, 5⟩⟩] ++
        [⟨.endOfInput, ⟨"f", 1, 6⟩⟩], none⟩ := by decide +kernel
  rw [outcome_ofSource hscan, ofTokens, Reader.ofTokens_append_end _ _ (by decide)]
  dsimp only
  rw [Reader.read, Reader.build_opening (by with_unfolding_all rfl), Reader.build_unclosed rfl]
  exact ⟨_, rfl, rfl, rfl⟩

/-- `twice` under itself, and an open declaration under it: both are found four lines further
down. -/
theorem parse_twice_compose :
    (ofSource "f" twice).outcome = .ok twiceProgram ∧
    (ofSource "f" (twice ++ "\n" ++ twice)).outcome =
      .ok (twiceProgram ++ Program.relocate (Location.down 4) twiceProgram) ∧
    ∃ d, (ofSource "f" (twice ++ "\n" ++ unclosed)).outcome = .error d ∧
      d.message = "unterminated macro body, expected '\x7d'" ∧ d.location = some ⟨"f", 5, 6⟩ := by
  obtain ⟨_, htwice, _⟩ := parse_lines_compose "f" twice twice twiceProgram read_twice
  obtain ⟨_, _, hunclosed⟩ := parse_lines_compose "f" twice unclosed twiceProgram read_twice
  obtain ⟨d, hread, hmessage, hplace⟩ := read_unclosed
  obtain ⟨d', place, hjoined, hsame, hplace', hbelow⟩ := hunclosed d hread
  obtain rfl : place = ⟨"f", 1, 6⟩ := by simpa [hplace] using hplace'.symm
  exact ⟨read_twice, htwice twiceProgram read_twice, d', hjoined, hsame.trans hmessage, hbelow⟩

end MacroAsm
