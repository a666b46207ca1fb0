import MacroAsm.Listing
import MacroAsm.Proofs.WellFormed

/-!
# MacroAsm.Proofs.RoundTrip

Reading undoes listing.  The lines of a listing are read one by one: a line is cut into
the words it was put together from, or into its comment, and these spell the item again.
Line ends keep the lines apart, and blanks between the fields keep the words apart; that
is why a separator has to be made of blanks.

* `scanFrom_fields` — words that are set apart by blanks are cut apart again;
* `exists_leaf_of_line` — the line of an item spells that item;
* `exists_body_of_listing` — the lines of a program spell that program;
* `parse_listing_same` — reading a listing gives the program back, places aside.
-/

namespace MacroAsm

open Grammar

namespace Listing

/-- A separator that sets words apart: a non-empty run of blanks. -/
def Blanks (separator : String) : Prop :=
  separator ≠ "" ∧ ∀ c ∈ separator.toList, c = ' ' ∨ c = '\t' ∨ c = '\r'

theorem blanks_iff {separator : String} :
    Blanks separator ↔ separator ≠ "" ∧ separator.toList.all Token.isBlank = true := by
  simp [Blanks, Token.isBlank, or_assoc]

instance : DecidablePred Blanks := fun _ => decidable_of_iff _ blanks_iff.symm

/-- A word ends where the separator starts. -/
theorem Blanks.isChar_head {separator : String} (h : Blanks separator) (rest : List Char) {c : Char}
    (hc : c ∈ (separator.toList ++ rest).head?) : Word.isChar c = false := by
  have hne : separator.toList ≠ [] := fun hnil => h.1 (String.toList_eq_nil_iff.mp hnil)
  obtain ⟨d, ds, hds⟩ := List.exists_cons_of_ne_nil hne
  have hcd : d = c := by simpa [hds] using hc
  have hmem : c ∈ separator.toList := by simp [hds, hcd]
  rcases h.2 c hmem with rfl | rfl | rfl <;> decide

/-! ## Listings line by line -/

section

variable {separator : String} {program : Program}

@[simp] theorem ofProgram_nil : ofProgram separator [] = .ok "" := rfl

/-- The line of an item comes in front of the other lines. -/
theorem ofProgram_cons {x : Item} {line text : String} (hline : Listing.line separator x = .ok line)
    (htext : ofProgram separator program = .ok text) :
    ofProgram separator (x :: program) = .ok (line ++ "\n" ++ text) := by
  unfold ofProgram at htext ⊢
  rw [List.mapM_cons, hline]
  cases hlines : program.mapM (Listing.line separator) with
  | error u =>
      rw [hlines] at htext
      cases htext
  | ok lines =>
      rw [hlines] at htext
      have hofLines : ofLines lines = text := Except.ok.inj htext
      have hjoin : ofLines (line :: lines) = line ++ "\n" ++ text := by
        rw [← hofLines]
        simp [ofLines, String.join_cons]
      rw [← hjoin]
      rfl

/-- Instructions can always be listed. -/
theorem ofProgram_ofInstructions (is : List Instruction) :
    ofProgram separator (Program.ofInstructions is) = .ok (ofInstructions separator is) := by
  induction is with
  | nil => rfl
  | cons i is ih =>
      have hcons := ofProgram_cons (x := .instruction i) rfl ih
      rw [Program.ofInstructions, List.map_cons, ← Program.ofInstructions, hcons]
      simp [ofInstructions, ofLines, String.join_cons]

end

end Listing

/-! ## Lines are cut into what they were put together from -/

namespace Token

/-- A scan with tokens put in front of it. -/
def Scan.prepend (ts : List Token) (scan : Scan) : Scan := { scan with tokens := ts ++ scan.tokens }

theorem Scan.push_eq_prepend (here : Location) (l : Lexeme) (scan : Scan) :
    scan.push here (some l) = scan.prepend [⟨l, here⟩] := rfl

theorem Scan.prepend_prepend (xs ys : List Token) (scan : Scan) :
    (scan.prepend ys).prepend xs = scan.prepend (xs ++ ys) := by
  simp [Scan.prepend, List.append_assoc]

variable {separator : String}

/-- **Fields are cut apart again**: a line of words with a separator between any two gives
the tokens of these words and its line end. -/
theorem scanFrom_fields (hsep : Listing.Blanks separator) {fields : List String}
    (hfields : ∀ field ∈ fields, AnyWord field) (here : Location) (rest : List Char) :
    ∃ xs there after, xs.map (·.lexeme) = fields.map Lexeme.word ∧
      scanFrom here ((separator.intercalate fields).toList ++ '\n' :: rest) =
        (scanFrom after rest).prepend (xs ++ [⟨.newline, there⟩]) := by
  induction fields generalizing here with
  | nil =>
      refine ⟨[], here, here.next '\n', rfl, ?_⟩
      rw [String.intercalate_nil]
      exact scanFrom_newline here rest
  | cons word fields ih =>
      have hword : AnyWord word := hfields word List.mem_cons_self
      have hmore : ∀ field ∈ fields, AnyWord field :=
        fun field h => hfields field (List.mem_cons_of_mem word h)
      cases fields with
      | nil =>
          have hstop : ∀ c ∈ ('\n' :: rest).head?, Word.isChar c = false := by
            rintro c ⟨⟩
            decide
          refine ⟨[⟨.word word, here⟩], here.advance word.toList,
            (here.advance word.toList).next '\n', rfl, ?_⟩
          rw [String.intercalate_singleton, scanFrom_word hword here hstop, scanFrom_newline]
          rfl
      | cons next fields =>
          have hstop : ∀ c ∈ (separator.toList ++
              ((separator.intercalate (next :: fields)).toList ++ '\n' :: rest)).head?,
              Word.isChar c = false := fun c hc => hsep.isChar_head _ hc
          obtain ⟨xs, there, after, hxs, hscan⟩ :=
            ih hmore ((here.advance word.toList).advance separator.toList)
          refine ⟨⟨.word word, here⟩ :: xs, there, after, by rw [List.map_cons, hxs]; rfl, ?_⟩
          rw [String.intercalate_cons_cons, String.toList_append, String.toList_append,
            List.append_assoc, List.append_assoc, scanFrom_word hword here hstop,
            scanFrom_blanks (List.all_eq_true.mp (Listing.blanks_iff.mp hsep).2), hscan,
            Scan.push_eq_prepend,
            Scan.prepend_prepend]
          rfl

end Token

theorem Opcode.spelled_mnemonic (op : Opcode) : op.Spelled op.mnemonic := by
  rw [← ofWord?_eq_some_iff]
  cases op <;> decide

theorem Opcode.anyWord_mnemonic (op : Opcode) : AnyWord op.mnemonic := by
  cases op <;> decide

/-- The fields of a proper instruction are words. -/
theorem Instruction.anyWord_fields {i : Instruction} (h : (Item.instruction i).Proper) :
    ∀ field ∈ i.fields, AnyWord field := by
  obtain ⟨hlabel, hoperand⟩ := h
  intro field hfield
  simp only [fields, List.mem_append, Option.mem_toList, List.mem_singleton] at hfield
  rcases hfield with (hfield | rfl) | hfield
  · exact (hlabel field hfield).anyWord
  · exact i.opcode.anyWord_mnemonic
  · exact hoperand field hfield

/-! ## Words spell the instruction that they are the fields of -/

namespace Grammar

/-- The fields of a proper instruction spell it: the operand, if there is one, comes right
behind the opcode, and a label is not taken for an opcode. -/
theorem Line.exists_of_fields {i : Instruction} {xs : List Token}
    (h : (Item.instruction i).Proper) (hxs : xs.map (·.lexeme) = i.fields.map Lexeme.word) :
    ∃ j, Line xs j ∧ j.unplaced = i.unplaced := by
  obtain ⟨opcode, label, operand, location⟩ := i
  have hopcode := opcode.spelled_mnemonic
  have hoperand : ∀ {ts : List Token}, ts.map (·.lexeme) = operand.toList.map Lexeme.word →
      Operand ts operand := by
    intro ts hts
    cases operand with
    | none =>
        obtain rfl : ts = [] := List.map_eq_nil_iff.mp hts
        exact .missing
    | some word =>
        obtain ⟨⟨lexeme, place⟩, rfl, hlexeme⟩ := List.map_eq_singleton_iff.mp hts
        obtain rfl : lexeme = .word word := hlexeme
        exact .word
  cases label with
  | none =>
      obtain ⟨⟨lexeme, place⟩, ts, rfl, hlexeme, hts⟩ := List.map_eq_cons_iff.mp hxs
      obtain rfl : lexeme = .word opcode.mnemonic := hlexeme
      exact ⟨⟨opcode, none, operand, some place⟩, .unlabelled hopcode (hoperand hts), rfl⟩
  | some label =>
      obtain ⟨⟨lexeme, place⟩, ts, rfl, hlexeme, hts⟩ := List.map_eq_cons_iff.mp hxs
      obtain ⟨⟨lexeme', found⟩, us, rfl, hlexeme', hus⟩ := List.map_eq_cons_iff.mp hts
      obtain rfl : lexeme = .word label := hlexeme
      obtain rfl : lexeme' = .word opcode.mnemonic := hlexeme'
      exact ⟨⟨opcode, some label, operand, some place⟩,
        .labelled (h.1 label rfl) hopcode (hoperand hus), rfl⟩

/-- At the end of a line an instruction is a leaf. -/
theorem Leaf.of_line_end {xs : List Token} {j : Instruction} {fields : List String}
    (hline : Line xs j) (hxs : xs.map (·.lexeme) = fields.map Lexeme.word) (place : Location)
    (ts : List Token) : Leaf xs (.instruction j) (⟨.newline, place⟩ :: ts) := by
  refine .instruction hline (fun t ht => ?_) fun _ => ?_
  · -- behind the first word comes another word of the line or its end
    obtain ⟨word, first, us, rfl⟩ := hline.exists_eq_cons
    cases us with
    | nil =>
        cases ht
        exact noParen_newline place
    | cons u us =>
        obtain rfl : u = t := Option.some.inj ht
        have hmem : u.lexeme ∈ fields.map Lexeme.word := by rw [← hxs]; simp
        obtain ⟨field, _, hfield⟩ := List.mem_map.mp hmem
        exact noParen_of_word hfield.symm
  · rintro t ⟨⟩
    exact noWord_newline place

/-- **A line spells the item that it lists.** -/
theorem exists_leaf_of_line {separator : String} (hsep : Listing.Blanks separator) {x : Item}
    (hplain : Program.isPlain [x] = true) (hx : x.Proper) :
    ∃ line, Listing.line separator x = .ok line ∧ ∀ here rest, ∃ xs y there after,
      Token.scanFrom here (line.toList ++ '\n' :: rest) =
        (Token.scanFrom after rest).prepend (xs ++ [⟨.newline, there⟩]) ∧
      (∀ ts, Leaf xs y (⟨.newline, there⟩ :: ts)) ∧ Item.same y x = true := by
  cases x with
  | instruction i =>
      refine ⟨i.line separator, rfl, fun here rest => ?_⟩
      obtain ⟨xs, there, after, hxs, hscan⟩ :=
        Token.scanFrom_fields hsep (Instruction.anyWord_fields hx) here rest
      obtain ⟨j, hline, hj⟩ := Line.exists_of_fields hx hxs
      refine ⟨xs, .instruction j, there, after, hscan, .of_line_end hline hxs there, ?_⟩
      simp [Item.same, hj]
  | comment text place =>
      refine ⟨"#" ++ text, rfl, fun here rest => ?_⟩
      refine ⟨[⟨.comment text, here⟩], .comment text (some here),
        here.advance ('#' :: text.toList), (here.advance ('#' :: text.toList)).next '\n', ?_,
        fun ts => .comment, by simp [Item.same]⟩
      have htext : ("#" ++ text).toList = '#' :: text.toList := by simp
      rw [htext, List.cons_append, Token.scanFrom_comment hx, Token.scanFrom_newline]
      rfl
  | call c => cases hplain
  | declaration name parameters body place => cases hplain

end Grammar

/-! ## Whole programs -/

open Program

variable {separator : String} {program : Program}

theorem isPlain_cons {x : Item} :
    isPlain (x :: program) = true ↔ isPlain [x] = true ∧ isPlain program = true := by
  simp [isPlain]

/-- **A listing spells its program.** -/
theorem exists_body_of_listing (hsep : Listing.Blanks separator) (hplain : isPlain program = true)
    (hproper : ∀ x ∈ program, x.Proper) :
    ∃ text, Listing.ofProgram separator program = .ok text ∧ ∀ here, ∃ ts stop p,
      Token.scanFrom here text.toList = ⟨ts ++ [⟨.endOfInput, stop⟩], none⟩ ∧ Body ts p ∧
        Item.sameAll p program = true := by
  induction program with
  | nil =>
      refine ⟨"", rfl, fun here => ⟨[], here, [], ?_, .nil, rfl⟩⟩
      simp [Token.scanFrom]
  | cons x program ih =>
      obtain ⟨hplainx, hplains⟩ := isPlain_cons.mp hplain
      obtain ⟨line, hline, hleaf⟩ := exists_leaf_of_line hsep hplainx (hproper x List.mem_cons_self)
      obtain ⟨text, htext, hbody⟩ := ih hplains fun y hy => hproper y (List.mem_cons_of_mem x hy)
      refine ⟨line ++ "\n" ++ text, Listing.ofProgram_cons hline htext, fun here => ?_⟩
      obtain ⟨xs, y, there, after, hscan, hxs, hsame⟩ := hleaf here text.toList
      obtain ⟨ts, stop, p, hrest, hp, hsames⟩ := hbody after
      refine ⟨xs ++ ⟨.newline, there⟩ :: ts, stop, y :: p, ?_, .leaf (hxs ts) (.newline hp), ?_⟩
      · have hchars : (line ++ "\n" ++ text).toList = line.toList ++ '\n' :: text.toList := by simp
        rw [hchars, hscan, hrest]
        simp [Token.Scan.prepend]
      · simp [Item.sameAll, hsame, hsames]

/-- A listing is read as the program it lists, places aside. -/
theorem exists_ofSource_listing (hsep : Listing.Blanks separator) (hplain : isPlain program = true)
    (hproper : ∀ x ∈ program, x.Proper) :
    ∃ text, Listing.ofProgram separator program = .ok text ∧ ∀ file, ∃ p,
      (ofSource file text).outcome = .ok p ∧ Item.sameAll p program = true := by
  obtain ⟨text, htext, hbody⟩ := exists_body_of_listing hsep hplain hproper
  refine ⟨text, htext, fun file => ?_⟩
  obtain ⟨ts, stop, p, hscan, hp, hsame⟩ := hbody (.start file)
  exact ⟨p, ofSource_eq_ok_iff_body.mpr ⟨ts, stop, hscan, hp⟩, hsame⟩

/-- **Reading undoes listing**: every program of instructions and comments, with labels,
operands and comments that can be written, is read back from its listing with nothing
but the places changed.  The programs without macros that reading gives are of that
kind, so listing them and reading the listing gives them back. -/
theorem parse_listing_same (separator : String) (hsep : Listing.Blanks separator) :
    (∀ program : Program, isPlain program = true → (∀ x ∈ program, x.Proper) →
      ∃ text, Listing.ofProgram separator program = .ok text ∧ ∀ file, ∃ p,
        (ofSource file text).outcome = .ok p ∧ Item.sameAll p program = true) ∧
    ∀ file source program, (ofSource file source).outcome = .ok program →
      isPlain program = true →
      (∀ x ∈ program, x.Proper) ∧
        ∃ text, Listing.ofProgram separator program = .ok text ∧ ∀ file', ∃ p,
          (ofSource file' text).outcome = .ok p ∧ Item.sameAll p program = true := by
  refine ⟨fun program => exists_ofSource_listing hsep, fun file source program hread hplain => ?_⟩
  have hproper : ∀ x ∈ program, x.Proper :=
    fun x hx => proper_of_ofSource hread x (mem_preorder hx)
  exact ⟨hproper, exists_ofSource_listing hsep hplain hproper⟩

/-- A comment full of marks, and an instruction with a number for a label and the name of an
operation for an operand. -/
def plainSample : Program :=
  [.comment "# \x7bF!(a),\r " none, .instruction ⟨.br, some "1", some "hlt", none⟩,
   .comment "" none]

/-- `plainSample` is read back from its listing with a tab and a carriage return between the
fields, and so is the one comment of a text. -/
theorem parse_listing_plainSample :
    Listing.Blanks "\t\r" ∧ isPlain plainSample = true ∧ (∀ x ∈ plainSample, x.Proper) ∧
      (∃ text, Listing.ofProgram "\t\r" plainSample = .ok text ∧ ∀ file, ∃ p,
        (ofSource file text).outcome = .ok p ∧ Item.sameAll p plainSample = true) ∧
      ∃ program, (ofSource "f" "#;\r\n").outcome = .ok program ∧ isPlain program = true ∧
        ∃ text, Listing.ofProgram "\t\r" program = .ok text ∧ ∀ file, ∃ p,
          (ofSource file text).outcome = .ok p ∧ Item.sameAll p program = true := by
  have hsep : Listing.Blanks "\t\r" := by decide
  have hproper : ∀ x ∈ plainSample, x.Proper := by decide
  obtain ⟨hlisted, hread⟩ := parse_listing_same "\t\r" hsep
  have hscan : Token.scan "f" "#;\r\n" =
      ⟨[⟨.comment ";", ⟨"f", 1, 1⟩⟩, ⟨.newline, ⟨"f", 1, 4⟩⟩] ++ [⟨.endOfInput, ⟨"f", 2, 1⟩⟩],
        none⟩ := by decide +kernel
  have hcomment : (ofSource "f" "#;\r\n").outcome = .ok [.comment ";" (some ⟨"f", 1, 1⟩)] :=
    ofSource_eq_ok_iff_body.mpr ⟨_, _, hscan, .leaf .comment (.newline .nil)⟩
  exact ⟨hsep, rfl, hproper, hlisted plainSample rfl hproper, _, hcomment, rfl,
    (hread "f" "#;\r\n" _ hcomment rfl).2⟩

end MacroAsm
