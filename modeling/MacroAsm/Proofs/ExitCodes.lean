import MacroAsm.Proofs.Delivery
import MacroAsm.Proofs.NormalPaths

/-!
# MacroAsm.Proofs.ExitCodes

What the exit code of a conversion says, for every command line that is accepted, on every
system.

* `locate_normal_of_found` and `accepted_of_ofArguments` — an input that is accepted is found
  again, so that it is read unless the system has something against it or it is no text
  (`sourceText_cases`);
* `exitCodeOf_ofFile` — which faults of files the command blames on its caller;
* `exit_perform_of_error`, `exit_perform_of_answer` — the exit code, by the answer and by what
  there is against writing it;
* `run_exit_codes` — all of it in one statement.
-/

namespace MacroAsm

/-- A conversion fails for nothing but a diagnostic of its source. -/
theorem diagnosed_of_convert {options : Options} {file source : String} {f : Failure}
    (h : convert options file source = .error f) : ∃ d, f = .diagnosed d := by
  cases hread : (Program.ofSource file source).outcome with
  | error d =>
    rw [convert, Step.firstError, convert_of_unread hread] at h
    exact ⟨d, (Except.error.inj h).symm⟩
  | ok p =>
    rw [convert_of_read_eq options hread] at h
    split at h
    · cases h
    · exact ⟨_, (Except.error.inj h).symm⟩
    · exact ⟨_, (Except.error.inj h).symm⟩

/-- Whether a fault is one that the command blames on its caller: a file that is not there or
may not be used. -/
def AccessFault.blamesCaller : AccessFault → Bool
  | missing => true
  | denied => true
  | forbidden => true
  | _ => false

namespace Command

variable {deepest : Nat} {config : Config} {input : ByteArray} {store : Store} {text : String}

/-! ## Accepted configurations -/

/-- What is known of a configuration that a command line asks for: its input is a file, a
device or standard input. -/
def Config.Accepted (store : Store) (config : Config) : Prop :=
  config.input = "-" ∨ (store.look config.input).isFound = true

namespace Config

theorem accepted_of_inputOf {path path' : String} (h : inputOf store path = .ok path') :
    path' = "-" ∨ (store.look path').isFound = true := by
  have hreadable {place : List String} (h : readable store place path = .ok path') :
      path = path' := by
    unfold readable at h
    split at h
    · exact Except.ok.inj h
    · cases h
  unfold inputOf at h
  split at h
  · rename_i hdash
    cases h
    exact .inl hdash
  · rw [Store.look]
    split at h
    · rename_i hlocate
      rw [← hreadable h, hlocate]
      exact .inr rfl
    · rename_i hlocate
      rw [← hreadable h, hlocate]
      exact .inr rfl
    all_goals cases h

theorem accepted_of_withOperands {config' : Config} {operands : List String}
    (h : config.withOperands store operands = .ok config') : config'.Accepted store := by
  unfold withOperands at h
  split at h
  · cases h
  · rename_i input hinput
    split at h
    · cases h
      exact accepted_of_inputOf hinput
    · cases h

end Config

/-- What a command line asks for has been checked. -/
theorem accepted_of_ofArguments {a : Arguments}
    (h : Request.ofArguments store a = .ok (.convert config)) : config.Accepted store := by
  unfold Request.ofArguments at h
  split at h
  · cases h
  · cases h
  · obtain ⟨config₁, hswitches, h⟩ := bind_eq_ok_iff.mp h
    obtain ⟨config₂, hoperands, h⟩ := bind_eq_ok_iff.mp h
    cases h
    exact Config.accepted_of_withOperands hoperands

/-! ## What goes wrong -/

/-- What the system has against reading the input file of a configuration. -/
def Config.inputFault? (config : Config) (store : Store) : Option AccessFault :=
  if Path.normal config.input = "-" then none
  else
    let place := (store.locate config.input).1
    (store.system.barsReading place).or (store.system.breaksReading place)

/-- The bytes of the source of a configuration, from standard input or a file. -/
def Config.bytes (config : Config) (input : ByteArray) (store : Store) :
    Except FileFault ByteArray :=
  if Path.normal config.input = "-" then .ok input else store.read (Path.normal config.input)

/-- The source of a configuration can be had, but its bytes are no text. -/
def Config.Garbled (config : Config) (input : ByteArray) (store : Store) : Prop :=
  ∃ bytes, config.bytes input store = .ok bytes ∧ ∀ text, Text.Utf8.encode text ≠ bytes

/-- The bytes of an accepted source can be had unless the system has something against it. -/
theorem bytes_cases (input : ByteArray) (haccepted : config.Accepted store) :
    (∃ bytes, config.bytes input store = .ok bytes ∧ config.inputFault? store = none) ∨
    ∃ fault tried, config.bytes input store = .error ⟨fault, tried⟩ ∧
      config.inputFault? store = some fault := by
  rw [Config.bytes, Config.inputFault?]
  by_cases hinput : Path.normal config.input = "-"
  · rw [if_pos hinput, if_pos hinput]
    exact .inl ⟨input, rfl, rfl⟩
  · rw [if_neg hinput, if_neg hinput]
    have hfound : (store.look config.input).isFound = true := by
      rcases haccepted with hdash | hfound
      · rw [hdash] at hinput
        exact absurd rfl hinput
      · exact hfound
    have hread : ∃ content, store.read (Path.normal config.input) =
        store.readAt (Path.normal config.input) (store.locate config.input).1 content := by
      rw [Store.read, Store.locate_normal_of_found hfound]
      rw [Store.look] at hfound
      rcases hlocate : store.locate config.input with ⟨place, entry⟩
      rw [hlocate] at hfound
      cases entry with
      | file content => exact ⟨content, rfl⟩
      | device content => exact ⟨content, rfl⟩
      | _ => cases hfound
    obtain ⟨content, hread⟩ := hread
    rw [hread, Store.readAt]
    dsimp only
    cases store.system.barsReading (store.locate config.input).1 with
    | some fault => exact .inr ⟨fault, _, rfl, rfl⟩
    | none =>
      cases store.system.breaksReading (store.locate config.input).1 with
      | some fault => exact .inr ⟨fault, _, rfl, rfl⟩
      | none => exact .inl ⟨content, rfl, rfl⟩

/-- The source of a configuration is what its bytes stand for. -/
theorem sourceText_eq_bind (config : Config) (input : ByteArray) (store : Store) :
    ∃ name, config.sourceText input store =
      match config.bytes input store with
      | .error f => .error (.ofFile f)
      | .ok bytes => (Session.textOf bytes).map (name, ·) := by
  rw [Config.sourceText, Config.bytes]
  by_cases hinput : Path.normal config.input = "-"
  · simp only [hinput, if_true]
    exact ⟨"<stdin>", rfl⟩
  · simp only [hinput, if_false]
    refine ⟨Path.normal config.input, ?_⟩
    rw [Session.sourceOf]
    cases store.read (Path.normal config.input) <;> rfl

/-- **The source of an accepted configuration** can be had, unless the system has something
against it or its bytes are no text. -/
theorem sourceText_cases (input : ByteArray) (haccepted : config.Accepted store) :
    (∃ fault tried, config.sourceText input store = .error (.ofFile ⟨fault, tried⟩) ∧
      config.inputFault? store = some fault ∧ ¬ config.Garbled input store) ∨
    (∃ fault, config.sourceText input store = .error (.ofEncoding fault) ∧
      config.inputFault? store = none ∧ config.Garbled input store) ∨
    ∃ named, config.sourceText input store = .ok named ∧ config.inputFault? store = none ∧
      ¬ config.Garbled input store := by
  obtain ⟨name, hsource⟩ := sourceText_eq_bind config input store
  rcases bytes_cases input haccepted with ⟨bytes, hbytes, hfault⟩ |
    ⟨fault, tried, hbytes, hfault⟩
  · rw [hbytes] at hsource
    dsimp only at hsource
    rw [hsource, Session.textOf]
    have hgarbled : config.Garbled input store ↔ ∀ text, Text.Utf8.encode text ≠ bytes := by
      simp [Config.Garbled, hbytes]
    cases hdecode : Text.Utf8.decode bytes with
    | error fault =>
      refine .inr (.inl ⟨fault, rfl, hfault, hgarbled.mpr fun text htext => ?_⟩)
      rw [← htext, Text.Utf8.decode_encode] at hdecode
      cases hdecode
    | ok text =>
      exact .inr (.inr ⟨_, rfl, hfault,
        fun h => hgarbled.mp h text (Text.Utf8.encode_of_decode hdecode)⟩)
  · rw [hbytes] at hsource
    exact .inl ⟨fault, tried, hsource, hfault, by simp [Config.Garbled, hbytes]⟩

/-! ## How a conversion ends -/

/-- The command blames a fault on its caller, or else takes it for a defect of its own. -/
theorem exitCodeOf_ofFile (f : FileFault) :
    exitCodeOf (.ofFile f) =
      if f.fault.blamesCaller then .invalidArguments else .internalError := by
  obtain ⟨fault, path⟩ := f
  cases fault <;> rfl

/-- Without a source, the exit code says why. -/
theorem exit_perform_of_sourceless {f : Failure} (deepest : Nat)
    (h : config.sourceText input store = .error f) :
    (perform deepest config input store).exit = exitCodeOf f := by
  rw [perform_of_failed rfl (outcome_source_of_error _ h), fail]

/-- Without an answer to a source, the exit code blames that. -/
theorem exit_perform_of_error {d : Diagnostic} (hfits : config.nesting input store ≤ deepest)
    (h : answer config input store = .error (.diagnosed d)) :
    (perform deepest config input store).exit = .sourceError := by
  rw [← firstError_source hfits] at h
  generalize hstep : source deepest config (Session.new config.options) input store = step at h
  cases hout : step.outcome with
  | error g =>
    rw [Step.firstError, hout] at h
    rw [perform_of_failed hstep hout, fail, Except.error.inj h]
    rfl
  | ok listing =>
    have herrors : step.session.ledger.hasErrors = true := by
      by_contra hnone
      rw [Step.firstError_eq_ok_iff.mpr ⟨hout, Bool.eq_false_iff.mpr hnone⟩] at h
      cases h
    rw [perform_of_returned hstep hout]
    simp [herrors]

/-- An answer is delivered, or the exit code says what there is against it. -/
theorem exit_perform_of_answer (hfits : config.nesting input store ≤ deepest)
    (h : answer config input store = .ok text) :
    (perform deepest config input store).exit =
      match config.outputFault? store text with
      | none => .success
      | some fault => if fault.blamesCaller then .invalidArguments else .internalError := by
  cases hfault : config.outputFault? store text with
  | none => exact exit_perform_of_none hfits h hfault
  | some fault =>
    obtain ⟨tried, hexit, _⟩ := perform_of_some hfits h hfault
    rw [hexit, exitCodeOf_ofFile]

end Command

open Command

/-- **What an exit code says**, on every system and however deep declarations may be nested.  The
command succeeds if there is an answer and nothing against writing it; it blames the source if
that has a diagnostic; it blames its caller if the input file or the output file is not there or
may not be used.  It takes for a defect of its own declarations that are nested too deep, an input
that is no text, and whatever else there is against reading the input or writing the output;
nothing else. -/
theorem run_exit_codes (deepest : Nat) (args : List String) (input : ByteArray) (store : Store)
    (config : Config)
    (h : Arguments.read args >>= Request.ofArguments store = .ok (.convert config)) :
    let o := run deepest args input store
    let r := answer config input store
    let fits := config.nesting input store ≤ deepest
    (o.exit.code = 0 ↔ fits ∧ ∃ text, r = .ok text ∧ config.outputFault? store text = none) ∧
    (o.exit.code = 1 ↔ fits ∧ ∃ d, r = .error (.diagnosed d)) ∧
    (o.exit.code = 2 ↔
      (∃ fault, config.inputFault? store = some fault ∧ fault.blamesCaller) ∨
      fits ∧ ∃ text fault, r = .ok text ∧ config.outputFault? store text = some fault ∧
        fault.blamesCaller) ∧
    (o.exit.code = 3 ↔ ¬ fits ∨ config.Garbled input store ∨
      (∃ fault, config.inputFault? store = some fault ∧ ¬ fault.blamesCaller) ∨
      fits ∧ ∃ text fault, r = .ok text ∧ config.outputFault? store text = some fault ∧
        ¬ fault.blamesCaller) := by
  intro o r fits
  obtain ⟨a, hread, hrequest⟩ := bind_eq_ok_iff.mp h
  have hrun : o = perform deepest config input store := by
    simp only [o, run, h]
  rw [hrun]
  have hfits {f : Failure} (hsource : config.sourceText input store = .error f) : fits :=
    (nesting_of_error hsource).trans_le (Nat.zero_le _)
  rcases sourceText_cases input (accepted_of_ofArguments hrequest) with
    ⟨fault, tried, hsource, hfault, hgarbled⟩ | ⟨fault, hsource, hfault, hgarbled⟩ |
    ⟨named, hsource, hfault, hgarbled⟩
  · have hexit := exit_perform_of_sourceless deepest hsource
    rw [exitCodeOf_ofFile] at hexit
    have hr : r = .error (.ofFile ⟨fault, tried⟩) := answer_of_error hsource
    cases hblame : fault.blamesCaller <;>
      simp [hexit, hr, hfits hsource, hfault, hgarbled, hblame, ExitCode.code, Failure.ofFile]
  · have hexit := exit_perform_of_sourceless deepest hsource
    have hr : r = .error (.ofEncoding fault) := answer_of_error hsource
    simp [hexit, hr, hfits hsource, hfault, hgarbled, ExitCode.code, exitCodeOf,
      Failure.ofEncoding]
  · by_cases hdeep : fits
    · cases hanswer : r with
      | error f =>
        obtain ⟨d, rfl⟩ := diagnosed_of_convert ((answer_of_text hsource).symm.trans hanswer)
        have hexit := exit_perform_of_error hdeep hanswer
        simp [hexit, hdeep, hfault, hgarbled, ExitCode.code]
      | ok text =>
        have hexit := exit_perform_of_answer hdeep hanswer
        cases hoff : config.outputFault? store text with
        | none => simp [hexit, hdeep, hfault, hgarbled, hoff, ExitCode.code]
        | some fault =>
          cases hblame : fault.blamesCaller <;>
            simp [hexit, hdeep, hfault, hgarbled, hoff, hblame, ExitCode.code]
    · obtain ⟨err, hperform⟩ := perform_of_deep (Nat.not_le.mp hdeep)
      simp [hperform, fail, hdeep, hfault, ExitCode.code, exitCodeOf, Failure.tooDeep]

/-- The listing of a file cannot be written behind that file, which is taken for a defect of the
command, nor in a folder that is not there, which is not. -/
theorem run_exits_twice :
    let store : Store := { files := [(["f"], Text.Utf8.encode twice)] }
    Arguments.read ["-o", "./f/out", "f"] >>= Request.ofArguments store =
        .ok (.convert { input := "f", output := some "./f/out" }) ∧
      (run usualDepth ["-o", "./f/out", "f"] .empty store).exit.code = 3 ∧
      Arguments.read ["-o", "d/out", "f"] >>= Request.ofArguments store =
        .ok (.convert { input := "f", output := some "d/out" }) ∧
      (run usualDepth ["-o", "d/out", "f"] .empty store).exit.code = 2 := by
  intro store
  have hblocked : Arguments.read ["-o", "./f/out", "f"] >>= Request.ofArguments store =
      .ok (.convert { input := "f", output := some "./f/out" }) := rfl
  have hmissing : Arguments.read ["-o", "d/out", "f"] >>= Request.ofArguments store =
      .ok (.convert { input := "f", output := some "d/out" }) := rfl
  have hfound : store.read "f" = .ok (Text.Utf8.encode twice) := rfl
  obtain ⟨_, _, _, hthree⟩ := run_exit_codes usualDepth _ .empty store _ hblocked
  obtain ⟨_, _, htwo, _⟩ := run_exit_codes usualDepth _ .empty store _ hmissing
  obtain ⟨hanswer, hfits⟩ := answer_twice "./f/out" hfound
  obtain ⟨hanswer', hfits'⟩ := answer_twice "d/out" hfound
  refine ⟨hblocked, hthree.mpr (.inr (.inr (.inr ⟨hfits, _, _, hanswer, rfl, ?_⟩))), hmissing,
    htwo.mpr (.inr ⟨hfits', _, _, hanswer', rfl, rfl⟩)⟩
  simp [AccessFault.blamesCaller]

/-- A file that holds no text is accepted as input, and then taken for a defect of the
command. -/
theorem run_internalError_of_bytes :
    let store : Store := { files := [(["a.lmc"], ⟨#[0xff]⟩)] }
    Arguments.read ["a.lmc"] >>= Request.ofArguments store =
        .ok (.convert { input := "a.lmc" }) ∧
      (run usualDepth ["a.lmc"] .empty store).exit.code = 3 := by
  intro store
  have hrequest : Arguments.read ["a.lmc"] >>= Request.ofArguments store =
      .ok (.convert { input := "a.lmc" }) := rfl
  obtain ⟨fault, hdecode⟩ : ∃ fault, Text.Utf8.decode ⟨#[0xff]⟩ = .error fault := by
    have hnone : String.fromUTF8? ⟨#[0xff]⟩ = none := by decide
    rw [Text.Utf8.decode, hnone]
    exact ⟨_, rfl⟩
  have hsource : Config.sourceText { input := "a.lmc" } .empty store =
      .error (.ofEncoding fault) := by
    have hfound : store.read "a.lmc" = .ok ⟨#[0xff]⟩ := rfl
    have hnormal : Path.normal "a.lmc" = "a.lmc" := rfl
    rw [Config.sourceText, hnormal, if_neg (by decide), Session.sourceOf, hfound]
    dsimp only
    rw [Session.textOf, hdecode]
    rfl
  have hrun : run usualDepth ["a.lmc"] .empty store =
      perform usualDepth { input := "a.lmc" } .empty store := by
    simp only [run, hrequest]
  refine ⟨hrequest, ?_⟩
  rw [hrun, exit_perform_of_sourceless usualDepth hsource]
  rfl

end MacroAsm
