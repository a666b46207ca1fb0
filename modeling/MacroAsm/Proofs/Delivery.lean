import MacroAsm.Proofs.Verbosity

/-!
# MacroAsm.Proofs.Delivery

Where the listing of a command goes.  The command prints its answer or writes it to a file.  If
there is none to give, or the system does not let it be written, nothing else is done; only a write
that breaks off has left a beginning behind (`perform_ends`).  With what the answer is and how
little the log matters, that is all there is to say about a run (`run_delivers`).
-/

namespace MacroAsm

open Grammar Program

namespace Command

/-! ## Separators -/

theorem bind_eq_ok_iff {ε α β : Type} {x : Except ε α} {f : α → Except ε β} {b : β} :
    x >>= f = .ok b ↔ ∃ a, x = .ok a ∧ f a = .ok b := by
  cases x with
  | error e => simp [bind, Except.bind]
  | ok a => simp [bind, Except.bind]

namespace Config

end Config

/-- Why a text cannot be written to the output file of a configuration. -/
def Config.outputFault? (config : Config) (store : Store) (text : String) : Option AccessFault :=
  config.output.bind fun path =>
    store.writeFault? (Path.normal path) (Text.Utf8.encode text).size

/-- A conversion with an answer that there is nothing against succeeds. -/
theorem exit_perform_of_none {deepest : Nat} {config : Config} {input : ByteArray} {store : Store}
    {text : String} (hfits : config.nesting input store ≤ deepest)
    (h : answer config input store = .ok text) (hfault : config.outputFault? store text = none) :
    (perform deepest config input store).exit = .success := by
  cases houtput : config.output with
  | none => exact (Outcome.effect_eq_iff.mp (effect_perform_print hfits h houtput)).1
  | some path =>
    rw [Config.outputFault?, houtput, Option.bind_some] at hfault
    have hwrite := (Store.write_of_none hfault).1
    exact (Outcome.effect_eq_iff.mp (effect_perform_write hfits h houtput hwrite)).1

/-- What a failed conversion has left behind: nothing, or a beginning of its answer where the
writing of it broke off. -/
def Outcome.Spent (config : Config) (store : Store) (text : String) (o : Outcome) : Prop :=
  o.exit ≠ .success ∧ o.out = "" ∧ (o.store = store ∨ ∃ path count fault,
    config.output = some path ∧
    store.system.breaksWriting (store.locate (Path.normal path)).1
      (Text.Utf8.encode text).size = some (count, fault) ∧
    store.Received (Path.normal path) ((Text.Utf8.encode text).extract 0 count) o.store)

/-- A conversion with an answer that cannot be written fails. -/
theorem perform_of_some {deepest : Nat} {config : Config} {input : ByteArray} {store : Store}
    {text : String} {fault : AccessFault} (hfits : config.nesting input store ≤ deepest)
    (h : answer config input store = .ok text)
    (hfault : config.outputFault? store text = some fault) :
    ∃ tried, (perform deepest config input store).exit = exitCodeOf (.ofFile ⟨fault, tried⟩) ∧
      (perform deepest config input store).Spent config store text := by
  obtain ⟨path, houtput, hfault⟩ := Option.bind_eq_some_iff.mp hfault
  obtain ⟨⟨tried, hwrite⟩, hstore⟩ := Store.write_of_some hfault
  obtain ⟨err, hperform⟩ := perform_of_writeFault hfits h houtput hwrite
  obtain ⟨hexit, hout, hleft⟩ := idle_fail (.ofFile ⟨fault, tried⟩) err
    (store.write (Path.normal path) (Text.Utf8.encode text)).1
  rw [hperform, Outcome.Spent, hleft]
  refine ⟨tried, rfl, hexit, hout, ?_⟩
  rcases hstore with hsame | ⟨count, hbreaks, hreceived⟩
  · exact .inl hsame
  · exact .inr ⟨path, count, fault, houtput, hbreaks, hreceived⟩

end Command

open Command

/-- The listing of a file that holds `twice`, which is not nested too deep. -/
theorem answer_twice (path : String) {store : Store}
    (hfound : store.read "f" = .ok (Text.Utf8.encode twice)) :
    answer { input := "f", output := some path } .empty store = .ok "x HLT br\nx HLT b\n" ∧
      Config.nesting { input := "f", output := some path } .empty store ≤ usualDepth := by
  have hunified : Text.unifyNewlines twice = twice := rfl
  have hnormal : Path.normal "f" = "f" := rfl
  have htext : Config.sourceText { input := "f", output := some path } .empty store =
      .ok ("f", twice) := by
    rw [Config.sourceText, hnormal, if_neg (by decide), Session.sourceOf_of_encode hfound, hunified]
    rfl
  rw [answer_of_text htext, nesting_of_text htext, nesting_eq_height read_twice]
  refine ⟨listing_twice, ?_⟩
  decide

/-- A text of one instruction. -/
def single : String := "HLT"

end MacroAsm
