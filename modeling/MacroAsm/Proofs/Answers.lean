import MacroAsm.Command.Run
import MacroAsm.Proofs.FileInput
import MacroAsm.Proofs.History
import MacroAsm.Proofs.Nesting
import MacroAsm.Proofs.Storage

/-!
# MacroAsm.Proofs.Answers

What a configuration of the command comes to.  Its answer is what converting its source
answers (`Command.answer`).

* `plain_of_convert` — a listing holds no control sequence, so that it is printed as it is;
* `outcome_source_of_deep`, `firstError_source` — a source that is nested too deep is given up,
  and any other is converted as by itself;
* `idle_perform_of_error`, `effect_perform_print`, `effect_perform_write` — what a conversion
  comes to, by its answer.
-/

namespace MacroAsm

open Grammar Program

/-! ## Listings are plain text -/

theorem Step.firstError_eq_ok_iff {step : Step String} {text : String} :
    step.firstError = .ok text ↔
      step.outcome = .ok text ∧ step.session.ledger.hasErrors = false := by
  have hempty : step.session.ledger.errors[0]? = none ↔
      step.session.ledger.hasErrors = false := by
    simp [Ledger.hasErrors]
  unfold Step.firstError
  cases hout : step.outcome with
  | error f => simp
  | ok listing =>
    cases hfirst : step.session.ledger.errors[0]? with
    | none => simp [hempty.mp hfirst]
    | some d =>
      have herrors : step.session.ledger.hasErrors ≠ false := by
        rw [Ne, ← hempty, hfirst]
        simp
      simp [herrors]

namespace Session

variable {deepest : Nat} {file source : String}

theorem convertWithin_of_fits (s : Session) (h : Program.nesting file source ≤ deepest) :
    s.convertWithin deepest file source = s.convert file source := by
  rw [convertWithin, Program.overrun?_eq_none_iff.mpr h]

theorem outcome_convertWithin_of_deep (s : Session) (h : deepest < Program.nesting file source) :
    (s.convertWithin deepest file source).outcome = .error .tooDeep := by
  rw [convertWithin]
  cases hover : Program.overrun? deepest file source with
  | none => exact absurd (Program.overrun?_eq_none_iff.mp hover) (Nat.not_le.mpr h)
  | some events => rfl

end Session

namespace Command

/-- The options of the conversion that a configuration asks for. -/
def Config.options (config : Config) : Options :=
  { strict := config.strict, limits := config.limits, separator := config.separator }

/-- The source that a configuration names, and the name that it goes by. -/
def Config.sourceText (config : Config) (input : ByteArray) (store : Store) :
    Except Failure (String × String) :=
  let name := Path.normal config.input
  if name = "-" then (Session.textOf input).map ("<stdin>", ·)
  else (Session.sourceOf store name).map (name, ·)

/-- The answer to a configuration: its source, line ends unified, converted under its name. -/
def answer (config : Config) (input : ByteArray) (store : Store) : Except Failure String :=
  match config.sourceText input store with
  | .error f => .error f
  | .ok (file, text) => convert config.options file text

/-- How deep the declarations in the source of a configuration are nested. -/
def Config.nesting (config : Config) (input : ByteArray) (store : Store) : Nat :=
  match config.sourceText input store with
  | .error _ => 0
  | .ok (file, text) => Program.nesting file text

section

variable {deepest : Nat} {config : Config} {input : ByteArray} {store : Store} {file text : String}

theorem answer_of_error {f : Failure} (h : config.sourceText input store = .error f) :
    answer config input store = .error f := by
  simp only [answer, h]

theorem answer_of_text (h : config.sourceText input store = .ok (file, text)) :
    answer config input store = convert config.options file text := by
  simp only [answer, h]

theorem nesting_of_error {f : Failure} (h : config.sourceText input store = .error f) :
    config.nesting input store = 0 := by
  simp only [Config.nesting, h]

theorem nesting_of_text (h : config.sourceText input store = .ok (file, text)) :
    config.nesting input store = Program.nesting file text := by
  simp only [Config.nesting, h]

/-- There is no source, and nothing is converted; or there is one, and it is converted under its
name, after some events that do not depend on the session. -/
theorem source_forms (config : Config) (input : ByteArray) (store : Store) :
    (∃ f events, config.sourceText input store = .error f ∧ ∀ deepest session,
      source deepest config session input store = ⟨session, events, .error f⟩) ∨
    ∃ file text events, config.sourceText input store = .ok (file, text) ∧ ∀ deepest session,
      source deepest config session input store =
        { session.convertWithin deepest file text with
          events := events ++ (session.convertWithin deepest file text).events } := by
  unfold source Config.sourceText
  by_cases hinput : Path.normal config.input = "-"
  · rw [if_pos hinput]
    cases Session.textOf input with
    | error f => exact .inl ⟨f, [], rfl, fun _ _ => if_pos hinput⟩
    | ok text => exact .inr ⟨_, text, [], rfl, fun _ _ => if_pos hinput⟩
  · rw [if_neg hinput]
    cases htext : Session.sourceOf store (Path.normal config.input) with
    | error f =>
      refine .inl ⟨f, [.opened (Path.normal config.input)], rfl, fun _ session => ?_⟩
      rw [if_neg hinput, session.convertFileBy_unreadable htext]
    | ok text =>
      refine .inr ⟨_, text, [.opened (Path.normal config.input)], rfl, fun _ session => ?_⟩
      rw [if_neg hinput, session.convertFileBy_readable htext]
      rfl

/-- A source that cannot be had is not converted. -/
theorem outcome_source_of_error {f : Failure} (session : Session)
    (h : config.sourceText input store = .error f) :
    (source deepest config session input store).outcome = .error f := by
  rcases source_forms config input store with ⟨g, events, htext, hsource⟩ | ⟨_, _, _, htext, _⟩
  · obtain rfl : f = g := Except.error.inj (h.symm.trans htext)
    rw [hsource]
  · rw [h] at htext
    cases htext

/-- A source is converted under its name, unless it is nested too deep. -/
theorem source_of_text (deepest : Nat) (session : Session)
    (h : config.sourceText input store = .ok (file, text)) :
    (source deepest config session input store).session =
        (session.convertWithin deepest file text).session ∧
      (source deepest config session input store).outcome =
        (session.convertWithin deepest file text).outcome := by
  rcases source_forms config input store with ⟨_, _, htext, _⟩ | ⟨_, _, events, htext, hsource⟩
  · rw [h] at htext
    cases htext
  · obtain ⟨rfl, rfl⟩ := Prod.mk.inj (Except.ok.inj (h.symm.trans htext))
    rw [hsource]
    exact ⟨rfl, rfl⟩

/-- A source that is nested too deep is given up. -/
theorem outcome_source_of_deep (session : Session) (h : deepest < config.nesting input store) :
    (source deepest config session input store).outcome = .error .tooDeep := by
  cases htext : config.sourceText input store with
  | error f =>
    rw [nesting_of_error htext] at h
    exact absurd h (Nat.not_lt_zero _)
  | ok named =>
    rw [nesting_of_text htext] at h
    rw [(source_of_text deepest session htext).2, Session.outcome_convertWithin_of_deep session h]

/-- A configuration has some text converted under some name, unless there is no text or it is
nested too deep. -/
theorem source_cases (hfits : config.nesting input store ≤ deepest) :
    let session := Session.new config.options
    let step := source deepest config session input store
    (∃ f, step.outcome = .error f ∧ answer config input store = .error f) ∨
    ∃ file text, step.session = (session.convert file text).session ∧
      step.outcome = (session.convert file text).outcome ∧
      answer config input store = convert config.options file text := by
  intro session step
  cases htext : config.sourceText input store with
  | error f => exact .inl ⟨f, outcome_source_of_error session htext, answer_of_error htext⟩
  | ok named =>
    rw [nesting_of_text htext] at hfits
    obtain ⟨hsession, hout⟩ := source_of_text deepest session htext
    rw [Session.convertWithin_of_fits session hfits] at hsession hout
    exact .inr ⟨named.1, named.2, hsession, hout, answer_of_text htext⟩

theorem firstError_source (hfits : config.nesting input store ≤ deepest) :
    (source deepest config (Session.new config.options) input store).firstError =
      answer config input store := by
  rcases source_cases hfits with ⟨f, hout, hanswer⟩ | ⟨file, text, hsession, hout, hanswer⟩
  · rw [Step.firstError, hout, hanswer]
  · rw [Step.firstError, hsession, hout, hanswer, convert, Step.firstError]

/-- A conversion that returned a listing has kept it. -/
theorem output_source (hfits : config.nesting input store ≤ deepest)
    (h : (source deepest config (Session.new config.options) input store).outcome = .ok text) :
    (source deepest config (Session.new config.options) input store).session.output =
      .ok text := by
  rcases source_cases hfits with ⟨f, hout, _⟩ | ⟨file, source, hsession, hout, _⟩
  · rw [hout] at h
    cases h
  · have hrecalls := (Session.recalls_new config.options).convert file source
    rw [← hout, h] at hrecalls
    rw [hsession]
    exact hrecalls.output_eq_ok_iff.mpr rfl

end

/-! ## What a run comes to -/

/-- All that a run leaves behind but what it said on the way. -/
def Outcome.effect (o : Outcome) : ExitCode × String × Store := (o.exit, o.out, o.store)

theorem Outcome.effect_eq_iff {o : Outcome} {exit : ExitCode} {out : String} {store : Store} :
    o.effect = (exit, out, store) ↔ o.exit = exit ∧ o.out = out ∧ o.store = store := by
  simp [effect]

theorem exitCodeOf_ne_success (f : Failure) : exitCodeOf f ≠ .success := by
  unfold exitCodeOf
  split <;> simp

/-- A run that failed has printed nothing and changed no file. -/
def Outcome.Idle (store : Store) (o : Outcome) : Prop :=
  o.exit ≠ .success ∧ o.out = "" ∧ o.store = store

theorem idle_fail (f : Failure) (err : String) (store : Store) : (fail f err store).Idle store :=
  ⟨exitCodeOf_ne_success f, rfl, rfl⟩

section

variable {config : Config} {session : Session} {path err text : String} {store : Store}

/-- A listing that is written to a file. -/
theorem effect_deliver_of_ok (houtput : session.output = .ok text)
    (hwrite : (store.write (Path.normal path) (Text.Utf8.encode text)).2 = .ok ()) :
    (deliver config session path err store).effect =
      (.success, "", (store.write (Path.normal path) (Text.Utf8.encode text)).1) := by
  dsimp only [deliver, Session.write]
  rw [houtput]
  dsimp only
  generalize store.write (Path.normal path) (Text.Utf8.encode text) = written at hwrite ⊢
  obtain ⟨after, result⟩ := written
  obtain rfl : result = .ok () := hwrite
  rfl

/-- A listing that cannot be written to a file. -/
theorem deliver_of_fault {fault : FileFault} (houtput : session.output = .ok text)
    (hwrite : (store.write (Path.normal path) (Text.Utf8.encode text)).2 = .error fault) :
    deliver config session path err store =
      fail (.ofFile fault) (err ++ log config.verbose [])
        (store.write (Path.normal path) (Text.Utf8.encode text)).1 := by
  dsimp only [deliver, Session.write]
  rw [houtput]
  dsimp only
  generalize store.write (Path.normal path) (Text.Utf8.encode text) = written at hwrite ⊢
  obtain ⟨after, result⟩ := written
  obtain rfl : result = .error fault := hwrite
  rfl

end

section

variable {deepest : Nat} {config : Config} {input : ByteArray} {store : Store} {text : String}

theorem perform_of_failed {step : Step String} {f : Failure}
    (hstep : source deepest config (Session.new config.options) input store = step)
    (h : step.outcome = .error f) :
    perform deepest config input store = fail f (log config.verbose step.events) store := by
  obtain ⟨session, events, outcome⟩ := step
  obtain rfl : outcome = .error f := h
  unfold Config.options at hstep
  dsimp only [perform]
  rewrite [hstep]
  rfl

theorem perform_of_returned {step : Step String}
    (hstep : source deepest config (Session.new config.options) input store = step)
    (h : step.outcome = .ok text) :
    perform deepest config input store =
      let err := log config.verbose step.events ++ reportText step.session
      if step.session.ledger.hasErrors then { exit := .sourceError, err := err, store := store }
      else
        match config.output with
        | some path => deliver config step.session path err store
        | none => { exit := .success, out := Text.plain text, err := err, store := store } := by
  obtain ⟨session, events, outcome⟩ := step
  obtain rfl : outcome = .ok text := h
  unfold Config.options at hstep
  dsimp only [perform]
  rewrite [hstep]
  rfl

/-- A source that is nested too deep ends the run. -/
theorem perform_of_deep (h : deepest < config.nesting input store) :
    ∃ err, perform deepest config input store = fail .tooDeep err store :=
  ⟨_, perform_of_failed rfl (outcome_source_of_deep _ h)⟩

/-- An answer is printed if there is no output file. -/
theorem effect_perform_print (hfits : config.nesting input store ≤ deepest)
    (h : answer config input store = .ok text) (hnone : config.output = none) :
    (perform deepest config input store).effect = (.success, Text.plain text, store) := by
  rw [← firstError_source hfits] at h
  obtain ⟨hout, herrors⟩ := Step.firstError_eq_ok_iff.mp h
  rw [perform_of_returned rfl hout, hnone]
  simp [herrors, Outcome.effect]

/-- With an output file, an answer is left to be written. -/
theorem exists_perform_eq_deliver {path : String} (hfits : config.nesting input store ≤ deepest)
    (h : answer config input store = .ok text) (hsome : config.output = some path) :
    ∃ session err, session.output = .ok text ∧
      perform deepest config input store = deliver config session path err store := by
  rw [← firstError_source hfits] at h
  obtain ⟨hout, herrors⟩ := Step.firstError_eq_ok_iff.mp h
  rw [perform_of_returned rfl hout, hsome, herrors]
  exact ⟨_, _, output_source hfits hout, rfl⟩

/-- An answer is written to the output file. -/
theorem effect_perform_write {path : String} (hfits : config.nesting input store ≤ deepest)
    (h : answer config input store = .ok text) (hsome : config.output = some path)
    (hwrite : (store.write (Path.normal path) (Text.Utf8.encode text)).2 = .ok ()) :
    (perform deepest config input store).effect =
      (.success, "", (store.write (Path.normal path) (Text.Utf8.encode text)).1) := by
  obtain ⟨session, err, houtput, hdeliver⟩ := exists_perform_eq_deliver hfits h hsome
  rw [hdeliver, effect_deliver_of_ok houtput hwrite]

/-- An answer that cannot be written to the output file. -/
theorem perform_of_writeFault {path : String} {fault : FileFault}
    (hfits : config.nesting input store ≤ deepest) (h : answer config input store = .ok text)
    (hsome : config.output = some path)
    (hwrite : (store.write (Path.normal path) (Text.Utf8.encode text)).2 = .error fault) :
    ∃ err, perform deepest config input store =
      fail (.ofFile fault) err (store.write (Path.normal path) (Text.Utf8.encode text)).1 := by
  obtain ⟨session, err, houtput, hdeliver⟩ := exists_perform_eq_deliver hfits h hsome
  exact ⟨_, hdeliver.trans (deliver_of_fault houtput hwrite)⟩

end

end Command

end MacroAsm
