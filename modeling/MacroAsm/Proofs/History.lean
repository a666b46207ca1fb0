import MacroAsm.Proofs.Reports

/-!
# MacroAsm.Proofs.History

A session over time.  It is asked for one thing after another, some of it fails, and
files come and go around it.

* `Expander.expand_congr` — an expander starts every program anew: besides its settings,
  only the diagnostics that it holds make a difference;
* `Session.Recalls` — what a session keeps of its last conversion.  `Recalls.convert` and
  `Recalls.act` say how a step changes that, and `recalls_after` what is left of a history;
* `convert_eq_fresh` — what a session makes of a source does not depend on what came
  before;
* `session_recalls_last` — all of it in one statement.
-/

namespace MacroAsm

open Program Expansion

/-! ## The room for errors -/

namespace Expansion

theorem capacity_enter (strict : Bool) (d : Diagnostic) (s : State) :
    (s.enter strict d).1.ledger.capacity = s.ledger.capacity := by
  cases strict <;> rfl

theorem capacity_report (settings : Settings) (c : Call) (origin : Option Location)
    (d : Diagnostic) (s : State) :
    (s.report settings c origin d).1.ledger.capacity = s.ledger.capacity := by
  fun_cases State.report settings c origin d s with
  | case1 => exact capacity_enter ..
  | case2 => rfl
  | case3 => exact capacity_enter ..

theorem capacity_expandCall (settings : Settings) (table : Table) (number : Nat) (c : Call)
    (origin : Option Location) (s : State) :
    (expandCall settings table number c origin s).1.ledger.capacity = s.ledger.capacity := by
  fun_cases expandCall settings table number c origin s with
  | case1 obstacle _ s' hreport =>
      have hcapacity := capacity_report settings c origin (obstacle.diagnostic table c) s
      simpa only [hreport] using hcapacity
  | case2 obstacle _ s' d hreport =>
      have hcapacity := capacity_report settings c origin (obstacle.diagnostic table c) s
      simpa only [hreport] using hcapacity
  | case3 => rfl
  | case4 => rfl

theorem capacity_pass (settings : Settings) (table : Table) (number : Nat) (ts : List Traced)
    (out : Array Traced) (s : State) :
    (Expansion.pass settings table number out ts s).1.ledger.capacity = s.ledger.capacity := by
  induction ts generalizing out s with
  | nil => rfl
  | cons t ts ih =>
      obtain ⟨item, origin⟩ := t
      cases item with
      | call c =>
          have hcapacity := capacity_expandCall settings table number c origin s
          rw [Expansion.pass]
          generalize expandCall settings table number c origin s = r at hcapacity
          obtain ⟨s', outcome⟩ := r
          cases outcome with
          | error d => exact hcapacity
          | ok items => exact (ih _ s').trans hcapacity
      | _ => exact ih _ s

theorem capacity_passes (settings : Settings) (table : Table) (number : Nat) (ts : List Traced)
    (s : State) (more : Nat) :
    (passes settings table number ts s more).state.ledger.capacity = s.ledger.capacity := by
  fun_induction passes settings table number ts s more with
  | case1 _ number ts s s' d hpass =>
      have hcapacity := capacity_pass settings table number ts #[] s
      simpa only [hpass] using hcapacity
  | case2 _ number ts s s' out hpass =>
      have hcapacity := capacity_pass settings table number ts #[] s
      simpa only [hpass] using hcapacity
  | case3 number ts s s' out hpass =>
      have hcapacity := capacity_pass settings table number ts #[] s
      simpa only [hpass] using hcapacity
  | case4 number ts s s' out hpass _ _ _ _ ih =>
      have hcapacity := capacity_pass settings table number ts #[] s
      rw [hpass] at hcapacity
      exact ih.trans hcapacity

end Expansion

/-! ## What an expander takes from earlier programs -/

namespace Expander

variable {e e' : Expander}

/-- **An expander starts every program anew**: the figures, the macros and the bad calls of an
earlier run make no difference. -/
theorem expand_congr (hsettings : e.settings = e'.settings) (hledger : e.ledger = e'.ledger)
    (program : Program) : e.expand program = e'.expand program := by
  obtain ⟨settings, ledger, passes, calls, table, sightings⟩ := e
  obtain ⟨settings', ledger', passes', calls', table', sightings'⟩ := e'
  cases hsettings
  cases hledger
  rfl

theorem capacity_expand (e : Expander) (program : Program) :
    (e.expand program).expander.ledger.capacity = e.ledger.capacity := by
  have hpasses := capacity_passes e.settings (Table.collect program).1 1 (trace none program)
    { ledger := (Table.collect program).2.foldl Ledger.addWarning e.ledger }
    (e.settings.limits.passes - 1)
  have hwarnings : ((Table.collect program).2.foldl Ledger.addWarning e.ledger).capacity =
      e.ledger.capacity := by
    rw [Ledger.foldl_addWarning]
  exact hpasses.trans hwarnings

end Expander

/-! ## What a session keeps -/

namespace Session

/-- All that a session shows of its last conversion. -/
structure View where
  output : Except Failure String
  program : List Instruction
  errors : Array Diagnostic
  warnings : Array Diagnostic
  report : String

/-- What a session shows. -/
def view (s : Session) : View :=
  { output := s.output
    program := s.program
    errors := s.ledger.errors
    warnings := s.ledger.warnings
    report := s.ledger.report Diagnostic.text }

/-- A session with given options has kept this of its last conversion, if there was one: its
listing and the instructions in it if it returned, and nothing otherwise. -/
structure Recalls (options : Options) (last : Option (Except Failure String)) (s : Session) :
    Prop where
  settings : s.expander.settings = options.expander.settings
  capacity : s.ledger.capacity = options.capacity
  separator : s.separator = options.separator
  listing : s.listing = last.bind Except.toOption
  program : s.listing = none → s.program = []
  listed : ∀ text ∈ s.listing, Listing.ofInstructions options.separator s.program = text

variable {options : Options} {last : Option (Except Failure String)} {s : Session}

theorem recalls_new (options : Options) : (new options).Recalls options none where
  settings := rfl
  capacity := rfl
  separator := rfl
  listing := rfl
  program _ := rfl
  listed _ h := by cases h

/-! ## Conversions -/

/-- The expander of a session is as good as new when a conversion starts. -/
theorem Recalls.expand_reset (h : s.Recalls options last) (p : Program) :
    s.reset.expander.expand p = options.expander.expand p := by
  have hsettings : s.reset.expander.settings = options.expander.settings := h.settings
  have hledger : s.reset.expander.ledger = options.expander.ledger := by
    simp only [reset, Ledger.clear, h.capacity, Options.expander]
  exact Expander.expand_congr hsettings hledger p

/-- **A conversion takes the place of the last one.** -/
theorem Recalls.convert (h : s.Recalls options last) (file source : String) :
    (s.convert file source).session.Recalls options (some (s.convert file source).outcome) := by
  cases hread : (ofSource file source).outcome with
  | error d =>
      obtain ⟨hsession, houtcome⟩ := s.convert_unread hread
      rw [hsession, houtcome]
      exact
        { settings := h.settings
          capacity := h.capacity
          separator := h.separator
          listing := rfl
          program := fun _ => rfl
          listed := fun _ ht => by cases ht }
  | ok p =>
      have hexpand := h.expand_reset p
      have hcapacity := Expander.capacity_expand options.expander p
      cases hout : (options.expander.expand p).outcome with
      | error d =>
          obtain ⟨hsession, houtcome⟩ := s.convert_stopped hread (hexpand ▸ hout)
          rw [hsession, houtcome, hexpand]
          exact
            { settings := rfl
              capacity := hcapacity
              separator := h.separator
              listing := rfl
              program := fun _ => rfl
              listed := fun _ ht => by cases ht }
      | ok is =>
          obtain ⟨hsession, houtcome⟩ := s.convert_listed hread (hexpand ▸ hout)
          rw [hsession, houtcome, hexpand, h.separator]
          exact
            { settings := rfl
              capacity := hcapacity
              separator := rfl
              listing := rfl
              program := fun hnone => by cases hnone
              listed := fun text ht => Option.some.inj ht }

/-- **What a session makes of a source does not depend on what came before.** -/
theorem Recalls.convert_eq_fresh (h : s.Recalls options last) (file source : String) :
    (s.convert file source).outcome = ((new options).convert file source).outcome ∧
      (s.convert file source).session.view =
        ((new options).convert file source).session.view := by
  have hnew := recalls_new options
  cases hread : (ofSource file source).outcome with
  | error d =>
      obtain ⟨hsession, houtcome⟩ := s.convert_unread hread
      obtain ⟨hsession', houtcome'⟩ := (new options).convert_unread hread
      rw [hsession, hsession', houtcome, houtcome']
      exact ⟨rfl, rfl⟩
  | ok p =>
      have hexpand := h.expand_reset p
      have hexpand' := hnew.expand_reset p
      cases hout : (options.expander.expand p).outcome with
      | error d =>
          obtain ⟨hsession, houtcome⟩ := s.convert_stopped hread (hexpand ▸ hout)
          obtain ⟨hsession', houtcome'⟩ := (new options).convert_stopped hread (hexpand' ▸ hout)
          rw [hsession, hsession', houtcome, houtcome', hexpand, hexpand']
          exact ⟨rfl, rfl⟩
      | ok is =>
          obtain ⟨hsession, houtcome⟩ := s.convert_listed hread (hexpand ▸ hout)
          obtain ⟨hsession', houtcome'⟩ := (new options).convert_listed hread (hexpand' ▸ hout)
          rw [hsession, hsession', houtcome, houtcome', hexpand, hexpand', h.separator,
            hnew.separator]
          exact ⟨rfl, rfl⟩

/-- Writing leaves a session as it is, whether it succeeds or not. -/
theorem session_write (s : Session) (store : Store) (path : String) :
    (s.write store path).2.session = s := by
  fun_cases Session.write s store path <;> rfl

end Session

/-! ## Sessions and files -/

/-- Something that is done with a session, or to the files around it. -/
inductive Action where
  | convert (file source : String)
  | convertFile (path : String)
  | write (path : String)
  /-- Ask for anything that the session shows. -/
  | look
  /-- Someone else changes the files. -/
  | meddle (store : Store)

/-- The text that an action has a session convert, with the name it goes by.  A file that
cannot be read, or is no text, is not converted. -/
def Action.source? (store : Store) : Action → Option (String × String)
  | convert file source => some (file, source)
  | convertFile path =>
    match Session.sourceOf store (Path.normal path) with
    | .ok source => some (Path.normal path, source)
    | .error _ => none
  | _ => none

/-- A session and the files around it. -/
structure Scene where
  session : Session
  store : Store

namespace Scene

/-- What an action leaves behind. -/
def act (scene : Scene) : Action → Scene
  | .convert file source => { scene with session := (scene.session.convert file source).session }
  | .convertFile path =>
    { scene with session := (scene.session.convertFile scene.store path).session }
  | .write path =>
    let written := scene.session.write scene.store path
    ⟨written.2.session, written.1⟩
  | .look => scene
  | .meddle store => { scene with store := store }

/-- What is left after a history of actions. -/
def after (scene : Scene) (history : List Action) : Scene := history.foldl act scene

/-- How the conversion that an action starts comes out. -/
def outcome? (scene : Scene) (action : Action) : Option (Except Failure String) :=
  (action.source? scene.store).map fun (file, source) =>
    (scene.session.convert file source).outcome

/-- How the last conversion of a history came out, if there was one. -/
def lastOutcome? (scene : Scene) : List Action → Option (Except Failure String)
  | [] => none
  | action :: history =>
    ((scene.act action).lastOutcome? history).or (scene.outcome? action)

variable {options : Options} {last : Option (Except Failure String)} {scene : Scene}

/-- **An action** leaves a session with what it knew before, unless it starts a conversion. -/
theorem recalls_act (h : scene.session.Recalls options last) (action : Action) :
    (scene.act action).session.Recalls options ((scene.outcome? action).or last) := by
  cases action with
  | convert file source => exact h.convert file source
  | convertFile path =>
      cases hsource : Session.sourceOf scene.store (Path.normal path) with
      | error f =>
          dsimp only [act, outcome?, Action.source?]
          rw [scene.session.convertFile_unreadable hsource, hsource]
          exact h
      | ok source =>
          dsimp only [act, outcome?, Action.source?]
          rw [(scene.session.convertFile_readable hsource).1, hsource]
          exact h.convert (Path.normal path) source
  | write path =>
      dsimp only [act]
      rw [scene.session.session_write scene.store path]
      exact h
  | look => exact h
  | meddle store => exact h

/-- **After any history** a session knows of the last conversion and of nothing before it. -/
theorem recalls_after (h : scene.session.Recalls options last) (history : List Action) :
    (scene.after history).session.Recalls options ((scene.lastOutcome? history).or last) := by
  induction history generalizing scene last with
  | nil => exact h
  | cons action history ih =>
      have hrest := ih (recalls_act h action)
      rwa [← Option.or_assoc] at hrest

end Scene

/-! ## After any history -/

namespace Session

variable {options : Options} {last : Option (Except Failure String)} {s : Session}

/-- The output of a session is what its last conversion returned. -/
theorem Recalls.output_eq_ok_iff (h : s.Recalls options last) {text : String} :
    s.output = .ok text ↔ last = some (.ok text) := by
  have hlisting := h.listing
  unfold output
  cases last with
  | none => simp [hlisting]
  | some outcome =>
      cases outcome with
      | error f => simp [hlisting, Except.toOption]
      | ok listing => simp [hlisting, Except.toOption]

/-- It is the listing of the instructions that are kept with it. -/
theorem Recalls.ofProgram_eq_ok (h : s.Recalls options last) {text : String}
    (houtput : s.output = .ok text) :
    Listing.ofProgram options.separator (ofInstructions s.program) = .ok text := by
  have hlisted : ∀ t ∈ s.listing, Listing.ofInstructions options.separator s.program = t :=
    h.listed
  unfold output at houtput
  cases hlisting : s.listing with
  | none => simp [hlisting] at houtput
  | some listing =>
      simp only [hlisting, Except.ok.injEq] at houtput
      rw [Listing.ofProgram_ofInstructions, hlisted listing hlisting, houtput]

/-- A session whose last conversion did not return has nothing to show or to write. -/
theorem Recalls.nothing_of_not_ok (h : s.Recalls options last)
    (hlast : ∀ text, last ≠ some (.ok text)) :
    s.program = [] ∧ s.output = .error .nothingYet ∧
      ∀ store path, s.write store path = (store, ⟨s, [], .error .nothingYet⟩) := by
  have hnone : s.listing = none := by
    rw [h.listing]
    cases last with
    | none => rfl
    | some outcome =>
        cases outcome with
        | error f => rfl
        | ok text => exact absurd rfl (hlast text)
  have houtput : s.output = .error .nothingYet := by simp only [output, hnone]
  have hwrite : ∀ store path, s.write store path = (store, ⟨s, [], .error .nothingYet⟩) := by
    intro store path
    simp only [write, houtput]
  exact ⟨h.program hnone, houtput, hwrite⟩

/-- There is no source in a file that cannot be read, or that is no text. -/
theorem exists_sourceOf_eq_error {store : Store} {path : String}
    (h : (∃ fault, store.read path = .error fault) ∨
      ∃ bytes fault, store.read path = .ok bytes ∧ Text.Utf8.decode bytes = .error fault) :
    ∃ f, sourceOf store path = .error f := by
  unfold sourceOf
  rcases h with ⟨fault, hread⟩ | ⟨bytes, fault, hread, hdecode⟩
  · rw [hread]
    exact ⟨.ofFile fault, rfl⟩
  · rw [hread]
    dsimp only
    rw [textOf, hdecode]
    exact ⟨.ofEncoding fault, rfl⟩

end Session

/-- **A session recalls its last conversion and nothing else.**  Whatever was done with a session
and to the files around it, failures included: a source is converted as by a new session; the
output is what the last conversion returned, and the listing of the instructions that the
session shows; if that conversion failed, or there was none, there are no instructions and
nothing is given out or written; and a file that cannot be read changes nothing. -/
theorem session_recalls_last (options : Options) (store : Store) (history : List Action) :
    let start : Scene := ⟨Session.new options, store⟩
    let s := (start.after history).session
    let last := start.lastOutcome? history
    (∀ file source,
      (s.convert file source).outcome = ((Session.new options).convert file source).outcome ∧
        (s.convert file source).session.view =
          ((Session.new options).convert file source).session.view) ∧
    (∀ text, s.output = .ok text ↔ last = some (.ok text)) ∧
    (∀ text, s.output = .ok text →
      Listing.ofProgram options.separator (ofInstructions s.program) = .ok text) ∧
    ((∀ text, last ≠ some (.ok text)) →
      s.program = [] ∧ s.output = .error .nothingYet ∧
        ∀ store path, s.write store path = (store, ⟨s, [], .error .nothingYet⟩)) ∧
    ∀ store path,
      ((∃ fault, store.read (Path.normal path) = .error fault) ∨
        ∃ bytes fault, store.read (Path.normal path) = .ok bytes ∧
          Text.Utf8.decode bytes = .error fault) →
      (s.convertFile store path).session = s ∧
        ∃ f, (s.convertFile store path).outcome = .error f := by
  intro start s last
  have hrecalls : s.Recalls options last := by
    have hstart : start.session.Recalls options none := Session.recalls_new options
    have hafter := Scene.recalls_after hstart history
    rwa [Option.or_none] at hafter
  refine ⟨hrecalls.convert_eq_fresh, fun _ => hrecalls.output_eq_ok_iff,
    fun _ => hrecalls.ofProgram_eq_ok, hrecalls.nothing_of_not_ok, fun store path h => ?_⟩
  obtain ⟨f, hf⟩ := Session.exists_sourceOf_eq_error h
  rw [s.convertFile_unreadable hf]
  exact ⟨rfl, f, rfl⟩

/-- A text with a character that fits nowhere. -/
def misfit : String := ";"

theorem read_misfit : ∃ d, (ofSource "f" misfit).outcome = .error d := by
  have hscan : Token.scan "f" misfit = ⟨[], some (.start "f", .character ';')⟩ := by decide +kernel
  rw [ofSource, hscan]
  exact ⟨_, rfl⟩

/-- A session that fails, converts `twice`, and fails to read and to write files shows the listing
of `twice`; another failure, and it is gone. -/
theorem session_recalls_twice :
    let start : Scene := ⟨Session.new {}, {}⟩
    let history : List Action :=
      [.convert "f" misfit, .convert "f" twice, .convertFile "nowhere", .write "a/b"]
    (start.after history).session.output = .ok "x HLT br\nx HLT b\n" ∧
      ((start.after history).session.convert "f" misfit).session.output = .error .nothingYet := by
  intro start history
  have hfresh := ((Session.new {}).convert_listed read_twice expand_twice).2
  have htwice := ((session_recalls_last {} {} [.convert "f" misfit]).1 "f" twice).1.trans hfresh
  have hnowhere : ((start.act (.convert "f" misfit)).act (.convert "f" twice)).outcome?
      (.convertFile "nowhere") = none := rfl
  have hsecond : (start.act (.convert "f" misfit)).outcome? (.convert "f" twice) =
      some (.ok "x HLT br\nx HLT b\n") := congrArg some htwice
  have hlast : start.lastOutcome? history = some (.ok "x HLT br\nx HLT b\n") := by
    simp only [history, Scene.lastOutcome?, hnowhere, hsecond]
    rfl
  obtain ⟨hfresh, houtput, _⟩ := session_recalls_last {} {} history
  refine ⟨(houtput _).mpr hlast, ?_⟩
  obtain ⟨d, hd⟩ := read_misfit
  have hview := (hfresh "f" misfit).2
  rw [((Session.new {}).convert_unread hd).1] at hview
  exact congrArg Session.View.output hview

end MacroAsm
