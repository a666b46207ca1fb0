import MacroAsm.Session
import MacroAsm.Proofs.Outcome
import MacroAsm.Proofs.RoundTrip

/-!
# MacroAsm.Proofs.Conversion

A conversion from source text to listing, seen as a whole: it reads the text, expands
the program and lists the instructions.

* `convert_eq_ok_iff` — what it takes for a conversion to return a listing;
* `proper_of_expand` — expansion keeps labels labels and operands words, since what it
  puts in place of a parameter is a name;
* `expand_ofInstructions` — instructions alone are expanded to themselves;
* `convert_idempotent` — so a listing is converted to itself.
-/

namespace MacroAsm

open Grammar Program Expansion

/-! ## What a conversion does -/

namespace Session

variable (s : Session) {file source : String} {p : Program} {d : Diagnostic}

/-- A text that cannot be read leaves nothing to show but what is wrong with it. -/
theorem convert_unread (hread : (ofSource file source).outcome = .error d) :
    (s.convert file source).session = s.reset ∧
      (s.convert file source).outcome = .error (.diagnosed d) := by
  simp only [Session.convert, hread]
  exact ⟨trivial, trivial⟩

/-- A text that is read, but whose expansion is given up, leaves the diagnostics of the
expansion as well. -/
theorem convert_stopped (hread : (ofSource file source).outcome = .ok p)
    (hstop : (s.reset.expander.expand p).outcome = .error d) :
    (s.convert file source).session =
        { s.reset with expander := (s.reset.expander.expand p).expander } ∧
      (s.convert file source).outcome = .error (.diagnosed d) := by
  simp only [Session.convert, hread, hstop]
  exact ⟨trivial, trivial⟩

/-- A text that is read and expanded is listed. -/
theorem convert_listed {is : List Instruction} (hread : (ofSource file source).outcome = .ok p)
    (hlist : (s.reset.expander.expand p).outcome = .ok is) :
    (s.convert file source).session =
        { expander := (s.reset.expander.expand p).expander
          separator := s.separator
          program := is
          listing := some (Listing.ofInstructions s.separator is) } ∧
      (s.convert file source).outcome = .ok (Listing.ofInstructions s.separator is) := by
  simp only [Session.convert, hread, hlist]
  exact ⟨rfl, rfl⟩

section

variable {store : Store} {path : String} {convertBy : Session → String → String → Step String}

/-- A file that holds no text leaves the session as it was. -/
theorem convertFileBy_unreadable {f : Failure}
    (hsource : sourceOf store (Path.normal path) = .error f) :
    s.convertFileBy convertBy store path = ⟨s, [.opened (Path.normal path)], .error f⟩ := by
  dsimp only [convertFileBy]
  rw [hsource]

/-- The text of a file is converted under the name of the file. -/
theorem convertFileBy_readable (hsource : sourceOf store (Path.normal path) = .ok source) :
    s.convertFileBy convertBy store path =
      { convertBy s (Path.normal path) source with
        events := .opened (Path.normal path) ::
          (convertBy s (Path.normal path) source).events } := by
  dsimp only [convertFileBy]
  rw [hsource]

theorem convertFile_unreadable {f : Failure}
    (hsource : sourceOf store (Path.normal path) = .error f) :
    s.convertFile store path = ⟨s, [.opened (Path.normal path)], .error f⟩ :=
  s.convertFileBy_unreadable hsource

theorem convertFile_readable (hsource : sourceOf store (Path.normal path) = .ok source) :
    (s.convertFile store path).session = (s.convert (Path.normal path) source).session ∧
      (s.convertFile store path).outcome = (s.convert (Path.normal path) source).outcome := by
  rw [convertFile, s.convertFileBy_readable hsource]
  exact ⟨rfl, rfl⟩

end

end Session

section

variable {options : Options} {file source : String} {p : Program}

/-- A text that cannot be read is not converted. -/
theorem convert_of_unread {d : Diagnostic} (h : (ofSource file source).outcome = .error d) :
    ((Session.new options).convert file source).outcome = .error (.diagnosed d) :=
  ((Session.new options).convert_unread h).2

/-- A text that is read is expanded and, if that comes to an end, listed. -/
theorem convert_of_read (options : Options) (h : (ofSource file source).outcome = .ok p) :
    let step := (Session.new options).convert file source
    let expanded := options.expander.expand p
    step.session.ledger = expanded.expander.ledger ∧
      (∀ d, expanded.outcome = .error d → step.outcome = .error (.diagnosed d)) ∧
      ∀ is, expanded.outcome = .ok is →
        step.outcome = .ok (Listing.ofInstructions options.separator is) ∧
          step.session.program = is := by
  intro step expanded
  have hstart : (Session.new options).reset.expander.expand p = expanded := rfl
  have hseparator : (Session.new options).separator = options.separator := rfl
  cases hout : expanded.outcome with
  | error d =>
      obtain ⟨hsession, houtcome⟩ := (Session.new options).convert_stopped h (hstart ▸ hout)
      simp [step, hsession, houtcome, hstart, Session.ledger]
  | ok is =>
      obtain ⟨hsession, houtcome⟩ := (Session.new options).convert_listed h (hstart ▸ hout)
      simp [step, hsession, houtcome, hstart, hseparator, Session.ledger]

/-- **A conversion returns a listing** if the text is read and its expansion returns
without any error on the way. -/
theorem convert_eq_ok_iff {text : String} :
    convert options file source = .ok text ↔
      ∃ p is, (ofSource file source).outcome = .ok p ∧
        (options.expander.expand p).outcome = .ok is ∧
        (options.expander.expand p).expander.ledger.errors = #[] ∧
        Listing.ofInstructions options.separator is = text := by
  rw [convert, Step.firstError]
  cases hread : (ofSource file source).outcome with
  | error d => simp [convert_of_unread hread]
  | ok p =>
      obtain ⟨hledger, herror, hok⟩ := convert_of_read options hread
      rw [hledger]
      cases hout : (options.expander.expand p).outcome with
      | error d => simp [herror d hout, hout]
      | ok is =>
          rw [(hok is hout).1]
          cases hfirst : (options.expander.expand p).expander.ledger.errors[0]? with
          | none =>
              have hnone := Array.size_eq_zero_iff.mp
                (Nat.le_zero.mp (Array.getElem?_eq_none_iff.mp hfirst))
              simp [hout, hnone]
          | some d =>
              have hsome : (options.expander.expand p).expander.ledger.errors ≠ #[] := by
                intro hempty
                rw [hempty] at hfirst
                cases hfirst
              simp [hsome]

end

/-! ## Expansion keeps instructions proper -/

/-- A scope in which names stand for names, and words for words. -/
structure Scope.Keeps (scope : Scope) : Prop where
  name : ∀ word, Name word → Name (scope word)
  anyWord : ∀ word, AnyWord word → AnyWord (scope word)

theorem Scope.keeps_top : Scope.top.Keeps := ⟨fun _ h => h, fun _ h => h⟩

/-- Arguments are names, so a parameter stands for a name whatever it is. -/
theorem Scope.keeps_bind (parameters : List String) {arguments : List String}
    (h : ∀ argument ∈ arguments, Name argument) : (bind parameters arguments).Keeps := by
  induction parameters generalizing arguments with
  | nil => exact keeps_top
  | cons p ps ih =>
      cases arguments with
      | nil => exact keeps_top
      | cons a as =>
          obtain ⟨ha, has⟩ := List.forall_mem_cons.mp h
          constructor
          · intro word hword
            rw [bind_cons_cons]
            split
            · exact ha
            · exact (ih has).name word hword
          · intro word hword
            rw [bind_cons_cons]
            split
            · exact ha.anyWord
            · exact (ih has).anyWord word hword

/-- An instruction stays proper when its operand is looked up. -/
theorem Item.Proper.instruction {scope : Scope} {i : Instruction} (hscope : scope.Keeps)
    (h : (Item.instruction i).Proper) : (Item.instruction (scope.instruction i)).Proper := by
  refine ⟨h.1, fun operand hoperand => ?_⟩
  obtain ⟨word, hword, rfl⟩ := Option.mem_map.mp hoperand
  exact hscope.anyWord word (h.2 word hword)

/-- **What a proper program means is proper.** -/
theorem Means.proper {program : Program} {scope : Scope} {items : List Item} {m : Meaning}
    (hprogram : program.Proper) (h : Means program scope items m) (hscope : scope.Keeps)
    (hitems : ∀ x ∈ items, x.Proper) : ∀ i ∈ m.instructions, (Item.instruction i).Proper := by
  induction h with
  | nil => simp
  | instruction _ ih =>
      obtain ⟨hi, hrest⟩ := List.forall_mem_cons.mp hitems
      exact List.forall_mem_cons.mpr ⟨hi.instruction hscope, ih hscope hrest⟩
  | comment _ ih => exact ih hscope (List.forall_mem_cons.mp hitems).2
  | declaration _ ih => exact ih hscope (List.forall_mem_cons.mp hitems).2
  | dropped _ _ ih => exact ih hscope (List.forall_mem_cons.mp hitems).2
  | @expanded scope c d items body m hd _ _ ihbody ih =>
      obtain ⟨hc, hrest⟩ := List.forall_mem_cons.mp hitems
      have harguments : ∀ argument ∈ (scope.call c).arguments, Name argument := by
        intro argument hargument
        obtain ⟨word, hword, rfl⟩ := List.mem_map.mp hargument
        exact hscope.name word (hc.2 word hword)
      have hbody : ∀ x ∈ d.body, x.Proper :=
        fun x hx => hprogram.body (target?_eq_some.mp hd).1 x (mem_preorder hx)
      intro i hi
      rcases List.mem_append.mp hi with hi | hi
      · exact ihbody (Scope.keeps_bind d.parameters harguments) hbody i hi
      · exact ih hscope hrest i hi

/-- What an expander makes of a proper program is proper. -/
theorem proper_of_expand {e : Expander} {program : Program} {is : List Instruction}
    (hprogram : program.Proper) (h : (e.expand program).outcome = .ok is) :
    ∀ x ∈ ofInstructions is, x.Proper := by
  obtain ⟨m, hm, _, _, rfl⟩ := means_of_expand_eq_ok h
  have hproper := hm.proper hprogram Scope.keeps_top fun x hx => hprogram x (mem_preorder hx)
  simpa [ofInstructions] using hproper

/-! ## Instructions alone -/

theorem isPlain_ofInstructions (is : List Instruction) : isPlain (ofInstructions is) = true := by
  simp [isPlain, ofInstructions]

theorem collect_ofInstructions (is : List Instruction) :
    Table.collect (ofInstructions is) = ([], []) := by
  unfold Table.collect
  induction is with
  | nil => rfl
  | cons i is ih => exact ih

/-- A pass puts instructions out as they are. -/
theorem pass_ofInstructions (settings : Settings) (table : Table) (number : Nat)
    (out : Array Traced) (is : List Instruction) (s : State) :
    Expansion.pass settings table number out (trace none (ofInstructions is)) s =
      (s, .ok (out ++ trace none (ofInstructions is))) := by
  induction is generalizing out with
  | nil => simp [trace, ofInstructions, Expansion.pass]
  | cons i is ih =>
      have hcons : trace none (ofInstructions (i :: is)) =
          ⟨.instruction i, none⟩ :: trace none (ofInstructions is) := rfl
      rw [hcons, Expansion.pass, ih]
      simp

/-- **Instructions alone are expanded to themselves**, strictly or not, and there is nothing
to report. -/
theorem expand_ofInstructions (e : Expander) (is : List Instruction) :
    (e.expand (ofInstructions is)).outcome = .ok is ∧
      (e.expand (ofInstructions is)).expander.ledger = e.ledger := by
  have hpending : pending (trace none (ofInstructions is)) = [] := by
    rw [pending_trace, calls, ofInstructions, List.filterMap_map, List.filterMap_eq_nil_iff]
    simp [Item.call?]
  have hleft : (trace none (ofInstructions is)).filterMap (fun t => t.item.instruction?) = is := by
    rw [trace, List.filterMap_map]
    exact instructions_ofInstructions is
  have hrun : run e.settings [] { ledger := e.ledger } (ofInstructions is) =
      ⟨1, { ledger := e.ledger }, .ok is⟩ := by
    rw [run, passes, pass_ofInstructions]
    simp [hpending, hleft]
  simp [Expander.expand, collect_ofInstructions, hrun]

/-- The instructions that an expansion gave can be expanded again, strictly or not: they stay
as they are, and the log stays empty. -/
theorem expand_again {strict : Bool} {passes calls : Int} {p : Program} {is : List Instruction}
    {log : List (Level × String)} (h : MacroAsm.expand strict passes calls p = .ok (is, log))
    (strict' : Bool) : MacroAsm.expand strict' passes calls (ofInstructions is) = .ok (is, []) := by
  rw [MacroAsm.expand] at h ⊢
  cases hlimits : Limits.ofInts passes calls with
  | error f => rw [hlimits] at h; simp at h
  | ok limits =>
    obtain ⟨hexpand, hledger⟩ := expand_ofInstructions { settings := ⟨strict', limits⟩ } is
    simp [hexpand, hledger, Ledger.logLines]

/-! ## Listings are converted to themselves -/

/-- The line of an instruction does not depend on where it was written. -/
theorem Instruction.line_unplaced (separator : String) (i : Instruction) :
    i.unplaced.line separator = i.line separator := rfl

/-- What is the same as a list of instructions, places aside, is a list of instructions
with the same listing. -/
theorem exists_instructions_of_sameAll {p : Program} {is : List Instruction}
    (h : Item.sameAll p (ofInstructions is) = true) (separator : String) :
    ∃ js, p = ofInstructions js ∧
      Listing.ofInstructions separator js = Listing.ofInstructions separator is := by
  induction p generalizing is with
  | nil =>
      cases is with
      | nil => exact ⟨[], rfl, rfl⟩
      | cons i is => simp [ofInstructions, Item.sameAll] at h
  | cons x p ih =>
      cases is with
      | nil => simp [ofInstructions, Item.sameAll] at h
      | cons i is =>
          have hcons : ofInstructions (i :: is) = .instruction i :: ofInstructions is := rfl
          rw [hcons, Item.sameAll, Bool.and_eq_true] at h
          obtain ⟨hsame, hrest⟩ := h
          obtain ⟨js, rfl, hjs⟩ := ih hrest
          cases x with
          | instruction j =>
              have hplaces : j.unplaced = i.unplaced := by simpa [Item.same] using hsame
              have hline : j.line separator = i.line separator := by
                rw [← j.line_unplaced, hplaces, i.line_unplaced]
              refine ⟨j :: js, rfl, ?_⟩
              simp only [Listing.ofInstructions, Listing.ofLines, List.map_cons, String.join_cons,
                hline] at hjs ⊢
              rw [hjs]
          | _ => simp [Item.same] at hsame

/-- A separator of blanks is no name of a separator. -/
theorem Listing.Blanks.separatorNamed {separator : String} (h : Listing.Blanks separator) :
    separatorNamed separator = separator := by
  have hspace : separator ≠ "space" := by rintro rfl; exact absurd h (by decide)
  have htab : separator ≠ "tab" := by rintro rfl; exact absurd h (by decide)
  simp [MacroAsm.separatorNamed, separators, List.lookup_cons, beq_false_of_ne hspace,
    beq_false_of_ne htab]

/-- The options of a session have the separator that was named or given. -/
theorem Options.blanks_of_ofRaw {raw : RawOptions} {options : Options}
    (hraw : Options.ofRaw raw = .ok options)
    (hsep : Listing.Blanks raw.separator ∨ raw.separator = "space" ∨ raw.separator = "tab") :
    Listing.Blanks options.separator := by
  unfold Options.ofRaw at hraw
  cases hlimits : Limits.ofInts raw.passes raw.calls with
  | error f =>
      rw [hlimits] at hraw
      cases hraw
  | ok limits =>
      rw [hlimits] at hraw
      cases hraw
      dsimp only
      rcases hsep with hblanks | hspace | htab
      · rw [hblanks.separatorNamed]
        exact hblanks
      · rw [hspace]
        decide
      · rw [htab]
        decide

/-- **Conversion is idempotent**: whatever the options are, if the fields of instructions are
set apart by blanks, a listing that was returned is converted to itself, without a word of
complaint.  Read as a program, it is the instructions it was made from, places aside. -/
theorem convert_idempotent (raw : RawOptions) (options : Options) (file source text : String)
    (hraw : Options.ofRaw raw = .ok options)
    (hsep : Listing.Blanks raw.separator ∨ raw.separator = "space" ∨ raw.separator = "tab")
    (h : convert options file source = .ok text) (file' : String) :
    convert options file' text = .ok text ∧
      ((Session.new options).convert file' text).session.ledger.errors = #[] ∧
      ((Session.new options).convert file' text).session.ledger.warnings = #[] ∧
      ∃ p, (ofSource file' text).outcome = .ok p ∧
        Listing.ofProgram options.separator
          (ofInstructions ((Session.new options).convert file source).session.program) =
            .ok text ∧
        Item.sameAll p
          (ofInstructions ((Session.new options).convert file source).session.program) = true := by
  obtain ⟨program, is, hread, hexpand, _, hlisting⟩ := convert_eq_ok_iff.mp h
  -- the program that was listed
  have hprogram : ((Session.new options).convert file source).session.program = is :=
    ((convert_of_read options hread).2.2 is hexpand).2
  have hproper : ∀ x ∈ ofInstructions is, x.Proper :=
    proper_of_expand (proper_of_ofSource hread) hexpand
  have htext : Listing.ofProgram options.separator (ofInstructions is) = .ok text := by
    rw [Listing.ofProgram_ofInstructions, hlisting]
  -- what its listing is read as, and what becomes of that
  obtain ⟨text', htext', hback⟩ := exists_ofSource_listing (Options.blanks_of_ofRaw hraw hsep)
    (isPlain_ofInstructions is) hproper
  obtain rfl : text = text' := Except.ok.inj (htext.symm.trans htext')
  obtain ⟨p, hp, hsame⟩ := hback file'
  obtain ⟨js, rfl, hjs⟩ := exists_instructions_of_sameAll hsame options.separator
  obtain ⟨hagain, hledger⟩ := expand_ofInstructions options.expander js
  have hquiet : ((Session.new options).convert file' text).session.ledger =
      { capacity := options.capacity } := by
    rw [(convert_of_read options hp).1, hledger]
    rfl
  have hfinal : convert options file' text = .ok text := by
    refine convert_eq_ok_iff.mpr ⟨ofInstructions js, js, hp, hagain, ?_, hjs.trans hlisting⟩
    rw [hledger]
    rfl
  rw [hprogram, hquiet]
  exact ⟨hfinal, rfl, rfl, ofInstructions js, hp, htext, hsame⟩

/-- A macro whose body has a label, a parameter and a call to nowhere, and two calls of it. -/
def twice : String := "F(a)=\x7bx HLT a\nG!()\x7d\nF!(br)\nF!(b)"

/-- The tokens of `twice`, up to the end of input. -/
def twiceTokens : List Token :=
  [⟨.word "F", ⟨"f", 1, 1⟩⟩, ⟨.mark .openParen "(", ⟨"f", 1, 2⟩⟩, ⟨.word "a", ⟨"f", 1, 3⟩⟩,
   ⟨.mark .closeParen ")", ⟨"f", 1, 4⟩⟩, ⟨.mark .equals "=", ⟨"f", 1, 5⟩⟩,
   ⟨.mark .openBrace "\x7b", ⟨"f", 1, 6⟩⟩,
   ⟨.word "x", ⟨"f", 1, 7⟩⟩, ⟨.word "HLT", ⟨"f", 1, 9⟩⟩, ⟨.word "a", ⟨"f", 1, 13⟩⟩,
   ⟨.newline, ⟨"f", 1, 14⟩⟩,
   ⟨.word "G", ⟨"f", 2, 1⟩⟩, ⟨.mark .callOpen "!(", ⟨"f", 2, 2⟩⟩,
   ⟨.mark .closeParen ")", ⟨"f", 2, 4⟩⟩, ⟨.mark .closeBrace "\x7d", ⟨"f", 2, 5⟩⟩,
   ⟨.newline, ⟨"f", 2, 6⟩⟩,
   ⟨.word "F", ⟨"f", 3, 1⟩⟩, ⟨.mark .callOpen "!(", ⟨"f", 3, 2⟩⟩, ⟨.word "br", ⟨"f", 3, 4⟩⟩,
   ⟨.mark .closeParen ")", ⟨"f", 3, 6⟩⟩, ⟨.newline, ⟨"f", 3, 7⟩⟩,
   ⟨.word "F", ⟨"f", 4, 1⟩⟩, ⟨.mark .callOpen "!(", ⟨"f", 4, 2⟩⟩, ⟨.word "b", ⟨"f", 4, 4⟩⟩,
   ⟨.mark .closeParen ")", ⟨"f", 4, 5⟩⟩]

/-- The program that `twice` is read as. -/
def twiceProgram : Program :=
  [.declaration "F" ["a"]
     [.instruction ⟨.hlt, some "x", some "a", some ⟨"f", 1, 7⟩⟩, .call ⟨"G", [], some ⟨"f", 2, 1⟩⟩]
     (some ⟨"f", 1, 1⟩),
   .call ⟨"F", ["br"], some ⟨"f", 3, 1⟩⟩, .call ⟨"F", ["b"], some ⟨"f", 4, 1⟩⟩]

theorem read_twice : (ofSource "f" twice).outcome = .ok twiceProgram := by
  have hscan : Token.scan "f" twice = ⟨twiceTokens ++ [⟨.endOfInput, ⟨"f", 4, 6⟩⟩], none⟩ := by
    decide +kernel
  have hread : (Reader.read ⟨twiceTokens, ⟨"f", 4, 6⟩⟩).outcome = .ok twiceProgram := by
    rw [Reader.read, twiceTokens, Reader.build_opening (by with_unfolding_all rfl),
      Reader.build_item (by rfl), Reader.build_item (by rfl), Reader.build_close (by rfl),
      Reader.build_item (by with_unfolding_all rfl), Reader.build_item (by with_unfolding_all rfl),
      Reader.build_nil]
    rfl
  exact ofSource_eq_ok_iff_body.mpr ⟨_, _, hscan, Reader.read_eq_ok_iff.mp hread⟩

theorem expand_twice : (({} : Options).expander.expand twiceProgram).outcome =
    .ok [⟨.hlt, some "x", some "br", some ⟨"f", 1, 7⟩⟩,
      ⟨.hlt, some "x", some "b", some ⟨"f", 1, 7⟩⟩] := rfl

theorem errors_expand_twice :
    (({} : Options).expander.expand twiceProgram).expander.ledger.errors = #[] := rfl

theorem listing_twice : convert {} "f" twice = .ok "x HLT br\nx HLT b\n" :=
  convert_eq_ok_iff.mpr ⟨_, _, read_twice, expand_twice, errors_expand_twice, rfl⟩

/-- The listing of `twice`, with tabs, is converted to itself. -/
theorem convert_twice :
    let raw : RawOptions := { separator := "tab" }
    let options : Options := { separator := "\t" }
    let text := "x\tHLT\tbr\nx\tHLT\tb\n"
    Options.ofRaw raw = .ok options ∧ convert options "f" twice = .ok text ∧
      convert options "g" text = .ok text ∧
      ((Session.new options).convert "g" text).session.ledger.warnings = #[] := by
  intro raw options text
  have hraw : Options.ofRaw raw = .ok options := rfl
  have hexpander : options.expander = ({} : Options).expander := rfl
  have hexpand := expand_twice
  have herrors := errors_expand_twice
  rw [← hexpander] at hexpand herrors
  have hconvert : convert options "f" twice = .ok text :=
    convert_eq_ok_iff.mpr ⟨_, _, read_twice, hexpand, herrors, rfl⟩
  obtain ⟨hagain, _, hquiet, _⟩ :=
    convert_idempotent raw options "f" twice text hraw (.inr (.inr rfl)) hconvert "g"
  exact ⟨hraw, hconvert, hagain, hquiet⟩

end MacroAsm
