import MacroAsm.Proofs.Relocation
import MacroAsm.Proofs.Scanning
import MacroAsm.Text.Newline

/-!
# MacroAsm.Proofs.LineEnds

Lines may end in LF or in CR LF.  `Text.Rewrapped` relates two texts of which the second
ends some lines in CR LF that the first ends in LF.

* `moved_scanFrom` — both are cut into the same lexemes; only a line end can move, and it
  stays in its line;
* `readAlike_of_rewrapped` — so both are read as the same program, or cannot be read for the
  same reason;
* `parse_rewrapped` — in particular, line ends make no difference to what a source is read as;
* `rewrapped_unifyNewlinesIn` — a text without a lone carriage return is such a rewrapping of
  what a file with that text is read as.

All of it holds under a move `f` of the places, such as another name for the file.
-/

namespace MacroAsm

/-! ## Moves that keep lines and columns in step -/

/-- A move of places under which the place after a character is the place after the moved
one. -/
def Location.Steady (f : Location → Location) : Prop :=
  ∀ (here : Location) (c : Char), f (here.next c) = (f here).next c

/-- A place in the line to which another has moved. -/
def Location.InLineOf (f : Location → Location) (a b : Location) : Prop :=
  b.file = (f a).file ∧ b.line = (f a).line

namespace Location

variable {f : Location → Location}

theorem inLineOf_self (a : Location) : InLineOf f a (f a) := ⟨rfl, rfl⟩

theorem inLineOf_next_return (a : Location) : InLineOf f a ((f a).next '\r') := by
  simp [InLineOf, next]

/-- A line feed leads to the next line, wherever in its line it stands. -/
theorem next_return_newline (a : Location) : (a.next '\r').next '\n' = a.next '\n' := by
  simp [next]

theorem Steady.advance (hf : Steady f) (here : Location) (text : List Char) :
    f (here.advance text) = (f here).advance text := by
  induction text generalizing here with
  | nil => rfl
  | cons c text ih => rw [advance_cons, advance_cons, ih, hf]

end Location

/-! ## Rewrapped texts -/

namespace Text

/-- The second text ends some lines in CR LF that the first ends in LF. -/
inductive Rewrapped : List Char → List Char → Prop
  | nil : Rewrapped [] []
  | keep (c : Char) {text text' : List Char} : Rewrapped text text' →
      Rewrapped (c :: text) (c :: text')
  | wrap {text text' : List Char} : Rewrapped text text' →
      Rewrapped ('\n' :: text) ('\r' :: '\n' :: text')

/-- Every carriage return of a text has a line feed after it. -/
def NoLoneReturn (text : List Char) : Prop :=
  ∀ i, text[i]? = some '\r' → text[i + 1]? = some '\n'

instance : DecidablePred NoLoneReturn := fun text =>
  decidable_of_iff (∀ i < text.length, text[i]? = some '\r' → text[i + 1]? = some '\n')
    ⟨fun h i hi => h i (List.getElem?_eq_some_iff.mp hi).1 hi, fun h i _ => h i⟩

theorem rewrapped_self (text : List Char) : Rewrapped text text := by
  induction text with
  | nil => exact .nil
  | cons c text ih => exact .keep c ih

variable {text text' : List Char}

/-- **Reading a file without lone carriage returns undoes a rewrapping.** -/
theorem rewrapped_unifyNewlinesIn (h : NoLoneReturn text) :
    Rewrapped (unifyNewlinesIn text) text := by
  fun_induction unifyNewlinesIn text with
  | case1 rest ih => exact .wrap (ih fun i => h (i + 2))
  | case2 rest hrest =>
    have hnext : rest[0]? = some '\n' := h 0 rfl
    cases rest with
    | nil => cases hnext
    | cons c rest =>
      obtain rfl : c = '\n' := by simpa using hnext
      exact absurd rfl (hrest rest)
  | case3 c rest _ _ ih => exact .keep c (ih fun i => h (i + 1))
  | case4 => exact .nil

/-- Characters other than CR and LF are the same on both sides. -/
theorem Rewrapped.span {p : Char → Bool} (h : Rewrapped text text') (hnewline : p '\n' = false)
    (hreturn : p '\r' = false) :
    text'.takeWhile p = text.takeWhile p ∧ Rewrapped (text.dropWhile p) (text'.dropWhile p) := by
  induction h with
  | nil => exact ⟨rfl, .nil⟩
  | keep c h ih =>
    by_cases hc : p c
    · simp [hc, ih]
    · simp [hc, h.keep c]
  | wrap h => simp [hnewline, hreturn, h.wrap]

/-- A line is the same on both sides, or has one more carriage return at its end. -/
theorem Rewrapped.line (h : Rewrapped text text') :
    (text'.takeWhile (· != '\n') = text.takeWhile (· != '\n') ∧
      Rewrapped (text.dropWhile (· != '\n')) (text'.dropWhile (· != '\n'))) ∨
    ∃ rest rest', text'.takeWhile (· != '\n') = text.takeWhile (· != '\n') ++ ['\r'] ∧
      text.dropWhile (· != '\n') = '\n' :: rest ∧ text'.dropWhile (· != '\n') = '\n' :: rest' ∧
      Rewrapped rest rest' := by
  induction h with
  | nil => exact .inl ⟨rfl, .nil⟩
  | keep c h ih =>
    by_cases hc : c = '\n'
    · exact .inl (by simp [hc, h.keep])
    · simpa [hc] using ih
  | @wrap rest rest' h => exact .inr ⟨rest, rest', by simp [h]⟩

end Text

/-! ## Scanning -/

namespace Token

variable {f : Location → Location}

/-- Two scans that differ by a move. -/
structure Scan.Moved (f : Location → Location) (r r' : Scan) : Prop where
  tokens : Reader.Moved f (Location.InLineOf f) r.tokens r'.tokens
  stop : r'.stop = r.stop.map fun (place, foreign) => (f place, foreign)

theorem Scan.Moved.push {r r' : Scan} (h : Scan.Moved f r r') (here : Location)
    (lexeme : Option Lexeme) : Scan.Moved f (r.push here lexeme) (r'.push (f here) lexeme) := by
  cases lexeme with
  | none => exact h
  | some l => exact ⟨.cons ⟨rfl, Location.inLineOf_self here, fun _ => rfl⟩ h.tokens, h.stop⟩

/-- A line end may stand one place further right. -/
theorem Scan.Moved.push_newline {r r' : Scan} (h : Scan.Moved f r r') (here : Location) :
    Scan.Moved f (r.push here (some .newline)) (r'.push ((f here).next '\r') (some .newline)) :=
  ⟨.cons ⟨rfl, Location.inLineOf_next_return here, fun hne => absurd rfl hne⟩ h.tokens, h.stop⟩

/-- What is cut off two such texts that start with the same character: the same slice, or a
comment with one more carriage return at its end. -/
inductive CutAlike : Except Foreign Slice → Except Foreign Slice → Prop
  | error (foreign : Foreign) : CutAlike (.error foreign) (.error foreign)
  | same (lexeme : Option Lexeme) (text : List Char) {rest rest' : List Char} :
      Text.Rewrapped rest rest' → CutAlike (.ok ⟨lexeme, text, rest⟩) (.ok ⟨lexeme, text, rest'⟩)
  | comment (lexeme : Option Lexeme) (text : List Char) {rest rest' : List Char} :
      Text.Rewrapped rest rest' →
      CutAlike (.ok ⟨lexeme, text, '\n' :: rest⟩) (.ok ⟨lexeme, text ++ ['\r'], '\n' :: rest'⟩)

theorem cutAlike {cs cs' : List Char} (h : Text.Rewrapped cs cs') (c : Char) :
    CutAlike (cut c cs) (cut c cs') := by
  unfold cut
  by_cases hblank : isBlank c
  · simp only [hblank, if_true]
    exact .same none [c] h
  by_cases hnewline : c = '\n'
  · simp only [hnewline, if_true]
    exact .same _ _ h
  by_cases hhash : c = '#'
  · simp only [hhash]
    rcases h.line with ⟨hbody, hrest⟩ | ⟨rest, rest', hbody, hdrop, hdrop', hrest⟩
    · rw [hbody]
      exact .same _ _ hrest
    · rw [hbody, hdrop, hdrop', dropReturns_concat_return]
      exact .comment _ _ hrest
  by_cases hchar : Word.isChar c
  · have hspan := h.span (p := Word.isChar) (by decide) (by decide)
    simp only [hblank, hnewline, hhash, hchar, hspan.1]
    exact .same _ _ hspan.2
  simp only [hblank, hnewline, hhash, hchar]
  by_cases hbang : c = '!'
  · cases h with
    | nil => simpa [hbang] using CutAlike.error .bareBang
    | wrap h => simpa [hbang] using CutAlike.error .bareBang
    | keep d h =>
      by_cases hparen : d = '('
      · simpa [hbang, hparen] using CutAlike.same _ _ h
      · simpa [hbang, hparen] using CutAlike.error .bareBang
  · cases hmark : mark? c with
    | none => simpa [hbang] using CutAlike.error (.character c)
    | some m => simpa [hbang] using CutAlike.same _ _ h

/-- A line end with a carriage return before it moves to the right, and nothing else
does. -/
theorem moved_scanFrom_newline (hf : Location.Steady f) {here : Location} {rest rest' : List Char}
    (h : Scan.Moved f (scanFrom (here.next '\n') rest) (scanFrom (f (here.next '\n')) rest')) :
    Scan.Moved f (scanFrom here ('\n' :: rest))
      (scanFrom ((f here).next '\r') ('\n' :: rest')) := by
  have hplace : ((f here).next '\r').next '\n' = f (here.next '\n') := by
    rw [Location.next_return_newline, hf]
  rw [scanFrom_newline, scanFrom_newline, hplace]
  exact h.push_newline here

/-- **Line ends do not matter to a scan**: every lexeme is found again, and all but line ends
exactly where they were. -/
theorem moved_scanFrom (hf : Location.Steady f) {text text' : List Char}
    (h : Text.Rewrapped text text') (here : Location) :
    Scan.Moved f (scanFrom here text) (scanFrom (f here) text') := by
  induction hn : text.length using Nat.strong_induction_on generalizing text text' here with
  | _ n ih =>
    subst hn
    cases h with
    | nil =>
      simp only [scanFrom]
      exact ⟨.cons ⟨rfl, Location.inLineOf_self here, fun _ => rfl⟩ .nil, rfl⟩
    | @wrap rest rest' h =>
      have hreturn : scanFrom (f here) ('\r' :: '\n' :: rest') =
          scanFrom ((f here).next '\r') ('\n' :: rest') :=
        scanFrom_of_cut (s := ⟨none, ['\r'], '\n' :: rest'⟩) rfl (f here)
      rw [hreturn]
      exact moved_scanFrom_newline hf (ih rest.length (by simp) h (here.next '\n') rfl)
    | @keep c cs cs' h =>
      have hcuts := cutAlike h c
      generalize hcut : cut c cs = slice at hcuts
      generalize hcut' : cut c cs' = slice' at hcuts
      cases hcuts with
      | error foreign =>
        rw [scanFrom_of_foreign hcut, scanFrom_of_foreign hcut']
        exact ⟨.nil, rfl⟩
      | @same lexeme text rest rest' hrest =>
        have hlen := length_rest_lt_of_cut hcut
        rw [scanFrom_of_cut hcut, scanFrom_of_cut hcut', ← hf.advance]
        exact (ih rest.length hlen hrest (here.advance text) rfl).push here lexeme
      | @comment lexeme text rest rest' hrest =>
        -- the line end after the comment is taken along, so that both go on from its line
        have hlen := length_rest_lt_of_cut hcut
        have hplace : (f here).advance (text ++ ['\r']) = (f (here.advance text)).next '\r' := by
          rw [Location.advance_append, hf.advance, Location.advance_cons, Location.advance_nil]
        rw [scanFrom_of_cut hcut, scanFrom_of_cut hcut', hplace]
        have hnext := ih rest.length (Nat.lt_of_succ_lt hlen) hrest
          ((here.advance text).next '\n') rfl
        exact (moved_scanFrom_newline hf hnext).push here lexeme

end Token

/-! ## Reading -/

namespace Reader

theorem Moved.of_append_singleton {f : Location → Location} {near : Location → Location → Prop}
    {ts ts' : List Token} {t : Token} (h : Moved f near (ts ++ [t]) ts') :
    ∃ us u, ts' = us ++ [u] ∧ Moved f near ts us ∧ Token.Moved f near t u := by
  induction ts generalizing ts' with
  | nil =>
    cases h with
    | @cons _ u _ us hu hus =>
      cases hus
      exact ⟨[], u, rfl, .nil, hu⟩
  | cons s ts ih =>
    cases h with
    | @cons _ v _ vs hv hvs =>
      obtain ⟨us, u, rfl, hus, hu⟩ := ih hvs
      exact ⟨v :: us, u, rfl, .cons hv hus, hu⟩

end Reader

open Program

/-- Two readings that differ by a move: a program that has moved, or the same reason why there
is none, found in the same line. -/
inductive ReadAlike (f : Location → Location) :
    Except Diagnostic Program → Except Diagnostic Program → Prop
  | ok (p : Program) : ReadAlike f (.ok p) (.ok (p.map (Item.relocate f)))
  | error {d d' : Diagnostic} {place place' : Location} : d'.cause = d.cause →
      d.location = some place → d'.location = some place' → Location.InLineOf f place place' →
      ReadAlike f (.error d) (.error d')

/-- Tokens that have moved are read alike, whatever texts are quoted. -/
theorem readAlike_ofTokens {f : Location → Location} {file file' : String}
    {source source' : Option String} {ts ts' : List Token} {stop stop' : Location}
    (hts : Reader.Moved f (Location.InLineOf f) ts ts') (hstop : Location.InLineOf f stop stop')
    (hend : ∀ t ∈ ts, t.lexeme ≠ .endOfInput) (hend' : ∀ t ∈ ts', t.lexeme ≠ .endOfInput) :
    ReadAlike f (ofTokens file source (ts ++ [⟨.endOfInput, stop⟩])).outcome
      (ofTokens file' source' (ts' ++ [⟨.endOfInput, stop'⟩])).outcome := by
  have hbuild : Reader.Alike f (Location.InLineOf f) (fun p p' => p' = p.map (Item.relocate f))
      (Reader.build stop [] [] ts).outcome (Reader.build stop' [] [] ts').outcome :=
    Reader.alike_build hstop hts
  unfold ofTokens
  rw [Reader.ofTokens_append_end file stop hend, Reader.ofTokens_append_end file' stop' hend']
  unfold Reader.read
  dsimp only
  generalize (Reader.build stop [] [] ts).outcome = r at hbuild
  generalize (Reader.build stop' [] [] ts').outcome = r' at hbuild
  cases hbuild with
  | @ok p p' hp =>
    subst hp
    exact .ok p
  | @error fault place place' hplace =>
    exact .error (congrArg Cause.malformed (Fault.message_relocate f fault)) rfl rfl hplace

/-- **Line ends do not matter to the reader.** -/
theorem readAlike_of_rewrapped {f : Location → Location} (hf : Location.Steady f)
    {file file' source source' : String} (hfile : f (.start file) = .start file')
    (h : Text.Rewrapped source.toList source'.toList) :
    ReadAlike f (ofSource file source).outcome (ofSource file' source').outcome := by
  have hscan : Token.Scan.Moved f (Token.scan file source) (Token.scan file' source') := by
    rw [Token.scan, Token.scan, ← hfile]
    exact Token.moved_scanFrom hf h (.start file)
  cases hleft : Token.scan file source with
  | mk tokens halt =>
    cases hright : Token.scan file' source' with
    | mk tokens' halt' =>
      rw [hleft, hright] at hscan
      obtain ⟨htokens, hhalt⟩ := hscan
      cases halt with
      | some halt =>
        obtain ⟨place, foreign⟩ := halt
        obtain rfl : halt' = some (f place, foreign) := hhalt
        simp only [ofSource, hleft, hright]
        exact .error rfl rfl rfl (Location.inLineOf_self place)
      | none =>
        obtain rfl : halt' = none := hhalt
        obtain ⟨ts, stop, rfl, hend⟩ := Token.exists_of_scanFrom hleft
        obtain ⟨us, stop', rfl, hend'⟩ := Token.exists_of_scanFrom hright
        obtain ⟨ts', last, heq, hts, hlast⟩ := htokens.of_append_singleton
        obtain ⟨rfl, rfl⟩ : us = ts' ∧ ⟨.endOfInput, stop'⟩ = last := by simpa using heq
        rw [outcome_ofSource hleft, outcome_ofSource hright]
        exact readAlike_ofTokens hts hlast.near hend hend'

/-- **Line ends make no difference.**  If some lines of a text end in CR LF instead of LF, it can
be read if and only if it could before, as the very same program: with the same comments, and
with every item, at any depth, at the same place.  Otherwise the message is the same, and so is
the line that it is about. -/
theorem parse_rewrapped (file source source' : String)
    (h : Text.Rewrapped source.toList source'.toList) :
    let read := (ofSource file source).outcome
    let read' := (ofSource file source').outcome
    ((∃ p, read' = .ok p) ↔ ∃ p, read = .ok p) ∧ (∀ p, read = .ok p → read' = .ok p) ∧
    ∀ d, read = .error d → ∃ d' place place', read' = .error d' ∧ d'.message = d.message ∧
      d.location = some place ∧ d'.location = some place' ∧ place'.file = place.file ∧
      place'.line = place.line := by
  intro read read'
  have halike : ReadAlike id read read' := readAlike_of_rewrapped (fun _ _ => rfl) rfl h
  generalize read = r at halike ⊢
  generalize read' = r' at halike ⊢
  cases halike with
  | ok p =>
    rw [← Program.mapPlace_eq_map, Option.map_id, Program.mapPlace_id]
    simp
  | @error d d' place place' hcause hplace hplace' hline =>
    refine ⟨by simp, by simp, ?_⟩
    rintro _ ⟨⟩
    exact ⟨d', place, place', rfl, congrArg Cause.message hcause, hplace, hplace', hline⟩

/-- A parameter list that goes on in the next line. -/
theorem parse_declaration_rewrapped :
    let source := "A(\nx)=\x7bHLT BR\x7d"
    let source' := "A(\r\nx)=\x7bHLT BR\x7d"
    Text.Rewrapped source.toList source'.toList ∧
      (ofSource "f" source).outcome = .ok declarationProgram ∧
      (ofSource "f" source').outcome = .ok declarationProgram := by
  intro source source'
  have htext : source.toList = 'A' :: '(' :: '\n' :: "x)=\x7bHLT BR\x7d".toList := by
    simp [source]
  have htext' : source'.toList = 'A' :: '(' :: '\r' :: '\n' :: "x)=\x7bHLT BR\x7d".toList := by
    simp [source']
  have hwrap : Text.Rewrapped source.toList source'.toList := by
    rw [htext, htext']
    exact .keep 'A' (.keep '(' (.wrap (Text.rewrapped_self _)))
  have hscan : Token.scan "f" source = ⟨declarationTokens, none⟩ := by decide +kernel
  have hread := read_declarationTokens hscan
  exact ⟨hwrap, hread, (parse_rewrapped "f" source source' hwrap).2.1 _ hread⟩

end MacroAsm
