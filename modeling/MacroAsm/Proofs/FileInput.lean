import Mathlib.Logic.Equiv.Basic
import MacroAsm.Proofs.Displacement
import MacroAsm.Proofs.LineEnds

/-!
# MacroAsm.Proofs.FileInput

Converting a file and converting its text.  A file is read with line ends of any kind, and
under its name in normal form; neither makes a difference to the answer, unless the text has
a carriage return that ends no line.

* `sameAnswer_convert` — texts that are read alike are converted alike;
* `file_like_text` — so a file is converted like the text that it holds;
* `file_unlike_text` — a lone carriage return is a blank in a text and a line end in a file.
-/

namespace MacroAsm

open Program

/-! ## The text of a file -/

namespace Text.Utf8

theorem decode_encode (text : String) : decode (encode text) = .ok text := by
  have hback : String.fromUTF8? text.toUTF8 = some text := by
    unfold String.fromUTF8?
    rw [String.toUTF8_eq_toByteArray, dif_pos text.isValidUTF8]
    rfl
  rw [decode, encode, hback]

theorem encode_of_decode {bytes : ByteArray} {text : String} (h : decode bytes = .ok text) :
    encode text = bytes := by
  unfold decode String.fromUTF8? at h
  split at h
  · rename_i hvalid
    split at hvalid
    · cases hvalid
      cases h
      rfl
    · cases hvalid
  · cases h

end Text.Utf8

theorem Session.textOf_encode (text : String) :
    textOf (Text.Utf8.encode text) = .ok (Text.unifyNewlines text) := by
  rw [textOf, Text.Utf8.decode_encode]

/-- The source in a file is the text that it holds, with its line ends unified. -/
theorem Session.sourceOf_of_encode {store : Store} {path text : String}
    (h : store.read path = .ok (Text.Utf8.encode text)) :
    sourceOf store path = .ok (Text.unifyNewlines text) := by
  rw [sourceOf, h]
  exact textOf_encode text

/-- A file is converted as its source is, under its name in normal form. -/
theorem convertFile_of_encode (options : Options) {store : Store} {path text : String}
    (h : store.read (Path.normal path) = .ok (Text.Utf8.encode text)) :
    convertFile options store path =
      convert options (Path.normal path) (Text.unifyNewlines text) := by
  obtain ⟨hsession, houtcome⟩ :=
    (Session.new options).convertFile_readable (Session.sourceOf_of_encode h)
  rw [convertFile, convert, Step.firstError, Step.firstError, hsession, houtcome]

/-! ## Another name for a file -/

namespace Location

/-- A place under another name of its file.  The two names change places, so that no two places
become one. -/
def rename (file file' : String) (here : Location) : Location :=
  { here with file := Equiv.swap file file' here.file }

theorem rename_injective (file file' : String) : Function.Injective (rename file file') := by
  intro a b h
  obtain ⟨name, line, column⟩ := a
  obtain ⟨name', line', column'⟩ := b
  simpa [rename] using h

theorem steady_rename (file file' : String) : Steady (rename file file') := by
  intro here c
  unfold next rename
  split <;> rfl

theorem rename_start (file file' : String) : rename file file' (.start file) = .start file' := by
  simp [rename, start]

end Location

/-! ## The same answer -/

/-- Two answers of a conversion that differ in nothing but places: the same listing, or
diagnostics of the same cause. -/
inductive SameAnswer : Except Failure String → Except Failure String → Prop
  | ok (text : String) : SameAnswer (.ok text) (.ok text)
  | diagnosed {d d' : Diagnostic} : d'.cause = d.cause →
      SameAnswer (.error (.diagnosed d)) (.error (.diagnosed d'))

/-- What is answered to a text that can be read. -/
theorem convert_of_read_eq (options : Options) {file source : String} {p : Program}
    (h : (ofSource file source).outcome = .ok p) :
    convert options file source =
      match (options.expander.expand p).outcome,
        (options.expander.expand p).expander.ledger.errors[0]? with
      | .ok is, none => .ok (Listing.ofInstructions options.separator is)
      | .ok _, some d => .error (.diagnosed d)
      | .error d, _ => .error (.diagnosed d) := by
  obtain ⟨hledger, herror, hok⟩ := convert_of_read options h
  rw [convert, Step.firstError, hledger]
  cases hout : (options.expander.expand p).outcome with
  | error d => rw [herror d hout]
  | ok is =>
    rw [(hok is hout).1]
    cases (options.expander.expand p).expander.ledger.errors[0]? <;> rfl

/-- **Texts that are read alike are converted alike**, if no two places become one. -/
theorem sameAnswer_convert {f : Location → Location} (hf : Function.Injective f)
    {file file' source source' : String}
    (h : ReadAlike f (ofSource file source).outcome (ofSource file' source').outcome)
    (options : Options) :
    SameAnswer (convert options file source) (convert options file' source') := by
  generalize hread : (ofSource file source).outcome = r at h
  generalize hread' : (ofSource file' source').outcome = r' at h
  cases h with
  | error hcause =>
    rw [convert, convert, Step.firstError, Step.firstError, convert_of_unread hread,
      convert_of_unread hread']
    exact .diagnosed hcause
  | ok p =>
    obtain ⟨hout, herrors⟩ := expand_map_relocate hf options.expander p
    have hfirst := congrArg (·[0]?) herrors
    simp only [Array.getElem?_map] at hfirst
    rw [convert_of_read_eq options hread, convert_of_read_eq options hread', hout]
    generalize (options.expander.expand p).expander.ledger.errors[0]? = first at hfirst
    generalize (options.expander.expand (p.map (Item.relocate f))).expander.ledger.errors[0]? =
      first' at hfirst
    cases (options.expander.expand p).outcome with
    | error d => exact .diagnosed rfl
    | ok is =>
      cases first with
      | none =>
        obtain rfl : first' = none := by simpa using hfirst
        have hlisting : Listing.ofInstructions options.separator
            (is.map (Instruction.relocate f)) = Listing.ofInstructions options.separator is :=
          Listing.ofInstructions_mapPlace (Option.map f) _ is
        simp only [Except.map, hlisting]
        exact .ok _
      | some d =>
        obtain ⟨d', rfl, hd'⟩ : ∃ d', first' = some d' ∧ d'.cause = d.cause := by
          simpa using hfirst
        exact .diagnosed hd'

/-- **A file is converted like the text that it holds.**  Always, it is converted like that text
with its line ends unified, under the name of the file in normal form.  If no carriage return
stands alone, the answer is the same as to the text itself under any name. -/
theorem file_like_text (options : Options) (store : Store) (path text : String)
    (h : store.read (Path.normal path) = .ok (Text.Utf8.encode text)) :
    convertFile options store path =
        convert options (Path.normal path) (Text.unifyNewlines text) ∧
      (Text.NoLoneReturn text.toList → ∀ file,
        SameAnswer (convertFile options store path) (convert options file text)) := by
  have hfile := convertFile_of_encode options h
  refine ⟨hfile, fun hreturn file => ?_⟩
  have hwrapped : Text.Rewrapped (Text.unifyNewlines text).toList text.toList := by
    rw [Text.unifyNewlines, String.toList_ofList]
    exact Text.rewrapped_unifyNewlinesIn hreturn
  have hread := readAlike_of_rewrapped (Location.steady_rename (Path.normal path) file)
    (Location.rename_start (Path.normal path) file) hwrapped
  rw [hfile]
  exact sameAnswer_convert (Location.rename_injective _ _) hread options

/-- The text of `twice` with some of its lines ended in CR LF. -/
def twiceWrapped : String := "F(a)=\x7bx HLT a\r\nG!()\x7d\r\nF!(br)\nF!(b)"

/-- A file that holds `twiceWrapped`, under a path that is not in normal form, is converted like
`twice`, and so is the text itself under another name. -/
theorem file_like_twice :
    let store : Store := { files := [(["f"], Text.Utf8.encode twiceWrapped)] }
    store.read (Path.normal "./f") = .ok (Text.Utf8.encode twiceWrapped) ∧
      Text.NoLoneReturn twiceWrapped.toList ∧
      convertFile {} store "./f" = .ok "x HLT br\nx HLT b\n" ∧
      convert {} "g" twiceWrapped = .ok "x HLT br\nx HLT b\n" := by
  intro store
  have hread : store.read (Path.normal "./f") = .ok (Text.Utf8.encode twiceWrapped) := rfl
  have hreturn : Text.NoLoneReturn twiceWrapped.toList := by decide
  obtain ⟨hfile, hsame⟩ := file_like_text {} store "./f" twiceWrapped hread
  have hnormal : Path.normal "./f" = "f" := rfl
  have hunified : Text.unifyNewlines twiceWrapped = twice := rfl
  rw [hnormal, hunified, listing_twice] at hfile
  have hanswer := hsame hreturn "g"
  rw [hfile] at hanswer
  refine ⟨hread, hreturn, hfile, ?_⟩
  generalize convert {} "g" twiceWrapped = answer at hanswer
  cases hanswer
  rfl

/-- **A lone carriage return** is a blank between two words of a text, so that the second is an
operand, and a line end in a file, so that it is an instruction of its own. -/
theorem file_unlike_text :
    let text := "HLT\rHLT"
    let store : Store := { files := [(["a.lmc"], Text.Utf8.encode text)] }
    store.read (Path.normal "a.lmc") = .ok (Text.Utf8.encode text) ∧
      convertFile {} store "a.lmc" = .ok "HLT\nHLT\n" ∧
      convert {} "a.lmc" text = .ok "HLT HLT\n" := by
  intro text store
  have hread : store.read (Path.normal "a.lmc") = .ok (Text.Utf8.encode text) := rfl
  have hnormal : Path.normal "a.lmc" = "a.lmc" := rfl
  have hunified : Text.unifyNewlines text = "HLT\nHLT" := by decide +kernel
  have hscan : Token.scan "a.lmc" text = ⟨[⟨.word "HLT", ⟨"a.lmc", 1, 1⟩⟩,
      ⟨.word "HLT", ⟨"a.lmc", 1, 5⟩⟩] ++ [⟨.endOfInput, ⟨"a.lmc", 1, 8⟩⟩], none⟩ := by
    decide +kernel
  have hlines : Token.scan "a.lmc" "HLT\nHLT" = ⟨[⟨.word "HLT", ⟨"a.lmc", 1, 1⟩⟩,
      ⟨.newline, ⟨"a.lmc", 1, 4⟩⟩, ⟨.word "HLT", ⟨"a.lmc", 2, 1⟩⟩] ++
        [⟨.endOfInput, ⟨"a.lmc", 2, 4⟩⟩], none⟩ := by decide +kernel
  have htext : (Reader.read ⟨[⟨.word "HLT", ⟨"a.lmc", 1, 1⟩⟩, ⟨.word "HLT", ⟨"a.lmc", 1, 5⟩⟩],
      ⟨"a.lmc", 1, 8⟩⟩).outcome =
        .ok [.instruction ⟨.hlt, none, some "HLT", some ⟨"a.lmc", 1, 1⟩⟩] := by
    rw [Reader.read, Reader.build_item (by rfl), Reader.build_nil]
    rfl
  have hfile : (Reader.read ⟨[⟨.word "HLT", ⟨"a.lmc", 1, 1⟩⟩, ⟨.newline, ⟨"a.lmc", 1, 4⟩⟩,
      ⟨.word "HLT", ⟨"a.lmc", 2, 1⟩⟩], ⟨"a.lmc", 2, 4⟩⟩).outcome =
        .ok [.instruction ⟨.hlt, none, none, some ⟨"a.lmc", 1, 1⟩⟩,
          .instruction ⟨.hlt, none, none, some ⟨"a.lmc", 2, 1⟩⟩] := by
    rw [Reader.read, Reader.build_item (by rfl), Reader.build_item (by rfl), Reader.build_nil]
    rfl
  have hoperand := ofSource_eq_ok_iff_body.mpr ⟨_, _, hscan, Reader.read_eq_ok_iff.mp htext⟩
  have hsecond := ofSource_eq_ok_iff_body.mpr ⟨_, _, hlines, Reader.read_eq_ok_iff.mp hfile⟩
  refine ⟨hread, ?_, convert_eq_ok_iff.mpr ⟨_, _, hoperand, rfl, rfl, rfl⟩⟩
  rw [convertFile_of_encode {} hread, hnormal, hunified]
  exact convert_eq_ok_iff.mpr ⟨_, _, hsecond, rfl, rfl, rfl⟩

end MacroAsm
