import MacroAsm.Proofs.Reports

/-!
# MacroAsm.Proofs.Strictness

A strict run next to a lenient run of the same program.  What the lenient run enters as
warnings, the strict run enters as errors; apart from that the two do the same, until
the strict run has entered as many errors as its ledger takes and stops.

* `Abreast.enter`, `Abreast.report` — entering a bad call keeps the runs abreast, or
  halts the strict one;
* `expandCall_paired`, `pass_paired`, `passes_paired` — so does everything that is made of
  it;
* `strict_eq_lenient_until_full` — how a strict expander differs from a lenient one, and
  when a strict conversion returns a listing.
-/

namespace MacroAsm

open Program Expansion

/-! ## Kinds of diagnostics -/

/-- A call has no macro to run. -/
def Cause.isBadCall : Cause → Bool
  | undeclared _ _ => true
  | arity _ _ _ => true
  | _ => false

/-- A name is declared again. -/
def Cause.isDuplicate : Cause → Bool
  | duplicate _ _ => true
  | _ => false

namespace Diagnostic

/-- The same diagnostic as a warning. -/
def asWarning (d : Diagnostic) : Diagnostic := { d with severity := .warning }

/-- The same diagnostic as an error. -/
def asError (d : Diagnostic) : Diagnostic := { d with severity := .error }

/-- A diagnostic of a bad call as a strict run enters it. -/
structure IsBadCall (d : Diagnostic) : Prop where
  cause : d.cause.isBadCall = true
  severity : d.severity = .error

theorem IsBadCall.asError_asWarning {d : Diagnostic} (h : d.IsBadCall) :
    d.asWarning.asError = d := by
  obtain ⟨cause, severity, location, hint, line⟩ := d
  cases h.severity
  rfl

end Diagnostic

namespace Expansion

theorem isBadCall_diagnostic (table : Table) (c : Call) (origin : Option Location)
    (obstacle : Obstacle) : (withOrigin origin (obstacle.diagnostic table c)).IsBadCall := by
  obtain ⟨hcause, _, hseverity⟩ := withOrigin_fields origin (obstacle.diagnostic table c)
  constructor
  · rw [hcause]
    cases obstacle <;> rfl
  · rw [hseverity]
    cases obstacle <;> rfl

theorem isBadCall_warning (table : Table) (n : Notice) :
    (n.warning table).cause.isBadCall = true := by
  unfold Notice.warning
  split
  · exact (isBadCall_diagnostic table n.call n.origin .undeclared).cause
  · exact (isBadCall_diagnostic table n.call n.origin (.arity _)).cause

/-! ## Two runs side by side -/

/-- What the ledgers of a lenient and of a strict run hold: the same warnings to begin with,
then the bad calls, and the lenient one perhaps some `more`. -/
structure Ahead (base more : List Diagnostic) (lenient strict : Ledger Diagnostic) : Prop where
  warnings : strict.warnings.toList = base
  entries : lenient.warnings.toList =
    base ++ strict.errors.toList.map Diagnostic.asWarning ++ more
  errors : ∀ d ∈ strict.errors.toList, d.IsBadCall
  more : ∀ d ∈ more, d.cause.isBadCall = true

/-- A lenient run in state `s` and a strict run in state `t` have done the same, and there is
room for more errors. -/
structure Abreast (capacity : Int) (base : List Diagnostic) (s t : State) : Prop
    extends Ahead base [] s.ledger t.ledger where
  sightings : t.sightings = s.sightings
  calls : t.calls = s.calls
  bound : t.ledger.capacity = capacity
  room : t.ledger.errors.size = 0 ∨ (t.ledger.errors.size : Int) < capacity

/-- The strict run in state `t` has stopped since its ledger is full, and the lenient run has
gone on from there to state `s`. -/
structure Halted (capacity : Int) (base : List Diagnostic) (s t : State) : Prop where
  ahead : ∃ more, Ahead base more s.ledger t.ledger
  full : (t.ledger.errors.size : Int) = max 1 capacity

variable {capacity : Int} {base : List Diagnostic} {s s' t : State} {table : Table}

/-- What a lenient run enters after the strict one has stopped comes on top. -/
theorem Halted.entered {ns : List Notice} (h : Halted capacity base s t)
    (hns : Entered table s ns s') : Halted capacity base s' t := by
  obtain ⟨more, hmore⟩ := h.ahead
  refine ⟨⟨more ++ (unseen s.sightings ns).map (Notice.warning table), ?_⟩, h.full⟩
  constructor
  · exact hmore.warnings
  · rw [hns.warnings, hmore.entries, List.append_assoc]
  · exact hmore.errors
  · intro d hd
    rcases List.mem_append.mp hd with hd | hd
    · exact hmore.more d hd
    · obtain ⟨n, _, rfl⟩ := List.mem_map.mp hd
      exact isBadCall_warning table n

/-- **Entering a bad call** keeps the runs abreast, unless the ledger of the strict one is
full then. -/
theorem Abreast.enter (h : Abreast capacity base s t) {d : Diagnostic} (hd : d.IsBadCall) :
    ((t.enter true d).2 = none ∧ Abreast capacity base (s.enter false d).1 (t.enter true d).1) ∨
      (t.enter true d).2 = some (.tooMany capacity) ∧
        Halted capacity base (s.enter false d).1 (t.enter true d).1 := by
  have hahead : Ahead base [] (s.enter false d).1.ledger (t.enter true d).1.ledger := by
    constructor
    · exact h.warnings
    · simp [State.enter, Ledger.addWarning, Ledger.addOrStop, Ledger.addError, h.entries,
        Diagnostic.asWarning]
    · simpa [State.enter, Ledger.addOrStop, Ledger.addError, or_imp, forall_and, hd]
        using h.errors
    · exact h.more
  have hsize : (t.enter true d).1.ledger.errors.size = t.ledger.errors.size + 1 := by
    simp [State.enter, Ledger.addOrStop, Ledger.addError]
  have hstop : (t.enter true d).2 =
      if capacity ≤ (t.ledger.errors.size + 1 : Nat) then some (.tooMany capacity) else none := by
    simp [State.enter, Ledger.addOrStop, Ledger.addError, Ledger.isFull, h.bound]
  have hroom := h.room
  by_cases hfull : capacity ≤ (t.ledger.errors.size + 1 : Nat)
  · rw [if_pos hfull] at hstop
    exact .inr ⟨hstop, ⟨[], hahead⟩, by omega⟩
  · rw [if_neg hfull] at hstop
    exact .inl ⟨hstop, hahead, h.sightings, h.calls, h.bound, by omega⟩

/-- So does reporting it, since the runs have seen the same. -/
theorem Abreast.report (h : Abreast capacity base s t) (limits : Limits) (c : Call)
    (origin : Option Location) {d : Diagnostic} (hd : (withOrigin origin d).IsBadCall) :
    ((t.report ⟨true, limits⟩ c origin d).2 = none ∧
        Abreast capacity base (s.report ⟨false, limits⟩ c origin d).1
          (t.report ⟨true, limits⟩ c origin d).1) ∨
      (t.report ⟨true, limits⟩ c origin d).2 = some (.tooMany capacity) ∧
        Halted capacity base (s.report ⟨false, limits⟩ c origin d).1
          (t.report ⟨true, limits⟩ c origin d).1 := by
  unfold State.report
  cases c.location with
  | none => exact h.enter hd
  | some place =>
      dsimp only
      rw [h.sightings]
      by_cases hseen : s.sightings.contains ⟨c.name, place, origin⟩
      · rw [if_pos hseen, if_pos hseen]
        exact .inl ⟨rfl, h⟩
      · rw [if_neg hseen, if_neg hseen]
        have hlooked : Abreast capacity base
            { s with sightings := ⟨c.name, place, origin⟩ :: s.sightings }
            { t with sightings := ⟨c.name, place, origin⟩ :: s.sightings } :=
          ⟨h.toAhead, rfl, h.calls, h.bound, h.room⟩
        exact hlooked.enter hd

/-- The results of a lenient and of a strict step: the same in states that are abreast, or the
strict one has stopped. -/
inductive Paired (capacity : Int) (base : List Diagnostic) {α : Type} :
    State × Except Diagnostic α → State × Except Diagnostic α → Prop where
  | together {s t : State} {r : Except Diagnostic α} :
      Abreast capacity base s t → Paired capacity base (s, r) (t, r)
  | halted {s t : State} {r : Except Diagnostic α} :
      Halted capacity base s t → Paired capacity base (s, r) (t, .error (.tooMany capacity))

/-- **One call** in two runs that are abreast. -/
theorem expandCall_paired (h : Abreast capacity base s t) (limits : Limits) (table : Table)
    (number : Nat) (c : Call) (origin : Option Location) :
    Paired capacity base (expandCall ⟨false, limits⟩ table number c origin s)
      (expandCall ⟨true, limits⟩ table number c origin t) := by
  unfold expandCall
  cases resolve table c with
  | error obstacle =>
      have hreport := h.report limits c origin (isBadCall_diagnostic table c origin obstacle)
      have hgoes := (calls_report ⟨false, limits⟩ c origin (obstacle.diagnostic table c) s).2 rfl
      dsimp only
      generalize s.report ⟨false, limits⟩ c origin (obstacle.diagnostic table c) = r
        at hreport hgoes
      generalize t.report ⟨true, limits⟩ c origin (obstacle.diagnostic table c) = r' at hreport
      obtain ⟨s', stop⟩ := r
      obtain ⟨t', stop'⟩ := r'
      cases hgoes
      rcases hreport with ⟨hnone, habreast⟩ | ⟨hsome, hhalted⟩
      · cases hnone
        exact .together habreast
      · cases hsome
        exact .halted hhalted
  | ok d =>
      have hcounted : Abreast capacity base { s with calls := s.calls + 1 }
          { t with calls := s.calls + 1 } :=
        ⟨h.toAhead, h.sightings, rfl, h.bound, h.room⟩
      dsimp only
      rw [h.calls]
      by_cases hlimit : limits.calls < s.calls + 1
      · rw [if_pos hlimit, if_pos hlimit]
        exact .together hcounted
      · rw [if_neg hlimit, if_neg hlimit]
        exact .together hcounted

variable {program : Program}

/-- **One pass** in two runs that are abreast. -/
theorem pass_paired (hT : table.Declares program) (limits : Limits) (number : Nat)
    (ts : List Traced) (out : Array Traced) (h : Abreast capacity base s t) :
    Paired capacity base (Expansion.pass ⟨false, limits⟩ table number out ts s)
      (Expansion.pass ⟨true, limits⟩ table number out ts t) := by
  induction ts generalizing out s t with
  | nil => exact .together h
  | cons x ts ih =>
      obtain ⟨item, origin⟩ := x
      cases item with
      | call c =>
          rw [Expansion.pass, Expansion.pass]
          have hcall := expandCall_paired h limits table number c origin
          generalize expandCall ⟨false, limits⟩ table number c origin s = r at hcall
          generalize expandCall ⟨true, limits⟩ table number c origin t = r' at hcall
          cases hcall with
          | @together s' t' outcome habreast =>
              cases outcome with
              | error d => exact .together habreast
              | ok items => exact ih _ habreast
          | @halted s' t' outcome hhalted =>
              -- the strict pass is over, whatever the lenient one still meets
              cases outcome with
              | error d => exact .halted hhalted
              | ok items =>
                  obtain ⟨ns, hns, _⟩ := pass_entered hT
                    (show (⟨false, limits⟩ : Settings).strict = false from rfl) number ts
                    (out ++ trace (origin.or c.location) items) s'
                  exact .halted (hhalted.entered hns)
      | _ => exact ih _ h

/-- What two whole runs come to: the same in states that are abreast, or the strict one has
stopped. -/
inductive RunsPaired (capacity : Int) (base : List Diagnostic) : Run → Run → Prop where
  | together {number : Nat} {s t : State} {r : Except Diagnostic (List Instruction)} :
      Abreast capacity base s t → RunsPaired capacity base ⟨number, s, r⟩ ⟨number, t, r⟩
  | halted {number number' : Nat} {s t : State} {r : Except Diagnostic (List Instruction)} :
      Halted capacity base s t →
      RunsPaired capacity base ⟨number, s, r⟩ ⟨number', t, .error (.tooMany capacity)⟩

/-- **Whole runs** that are abreast at the beginning. -/
theorem passes_paired (hT : table.Declares program) (limits : Limits) (number : Nat)
    (ts : List Traced) (more : Nat) (h : Abreast capacity base s t)
    (hs : s.calls ≤ limits.calls) :
    RunsPaired capacity base (passes ⟨false, limits⟩ table number ts s more)
      (passes ⟨true, limits⟩ table number ts t more) := by
  induction more using Nat.strongRecOn generalizing number ts s t with
  | ind more ih =>
      have hlenient : (⟨false, limits⟩ : Settings).strict = false := rfl
      have hend : PassEnd program ⟨false, limits⟩ number s.calls ts #[]
          (Expansion.pass ⟨false, limits⟩ table number #[] ts s) := pass_ends hT number ts #[] s hs
      have hpass := pass_paired hT limits number ts #[] h
      unfold passes
      generalize Expansion.pass ⟨false, limits⟩ table number #[] ts s = r at hpass hend
      generalize Expansion.pass ⟨true, limits⟩ table number #[] ts t = r' at hpass
      cases hpass with
      | @together s' t' outcome habreast =>
          cases outcome with
          | error d => exact .together habreast
          | ok out =>
              obtain ⟨_, hlimit, _⟩ := hend
              dsimp only
              split
              · exact .together habreast
              · cases more with
                | zero => exact .together habreast
                | succ more => exact ih more (Nat.lt_succ_self more) _ _ habreast hlimit
      | @halted s' t' outcome hhalted =>
          cases outcome with
          | error d => exact .halted hhalted
          | ok out =>
              obtain ⟨_, hlimit, _⟩ := hend
              dsimp only
              split
              · exact .halted hhalted
              · cases more with
                | zero => exact .halted hhalted
                | succ more =>
                    obtain ⟨ns, hns, _⟩ :=
                      passes_entered hT hlenient (number + 1) out.toList s' more hlimit
                    exact .halted (hhalted.entered hns)

/-- What two runs have in common in either case. -/
theorem RunsPaired.exists_ahead {r r' : Run} (h : RunsPaired capacity base r r') :
    ∃ more, Ahead base more r.state.ledger r'.state.ledger ∧
      ((more = [] ∧ r'.outcome = r.outcome ∧ r'.passes = r.passes ∧
          r'.state.calls = r.state.calls ∧
          (r'.state.ledger.errors.size = 0 ∨ (r'.state.ledger.errors.size : Int) < capacity)) ∨
        r'.outcome = .error (.tooMany capacity) ∧
          (r'.state.ledger.errors.size : Int) = max 1 capacity) := by
  cases h with
  | together habreast =>
      exact ⟨[], habreast.toAhead, .inl ⟨rfl, rfl, rfl, habreast.calls, habreast.room⟩⟩
  | halted hhalted =>
      obtain ⟨more, hmore⟩ := hhalted.ahead
      exact ⟨more, hmore, .inr ⟨rfl, hhalted.full⟩⟩

end Expansion

/-! ## Strict and lenient expanders -/

theorem Cause.isBadCall_of_isDuplicate {cause : Cause} (h : cause.isDuplicate = true) :
    cause.isBadCall = false := by
  cases cause with
  | duplicate name first => rfl
  | _ => cases h

theorem Cause.isDuplicate_of_isBadCall {cause : Cause} (h : cause.isBadCall = true) :
    cause.isDuplicate = false := by
  cases cause with
  | duplicate name first => cases h
  | _ => rfl

namespace Expansion.Ahead

variable {base more : List Diagnostic} {lenient strict : Ledger Diagnostic}

theorem isBadCall_of_mem (h : Ahead base more lenient strict) :
    ∀ d ∈ strict.errors.toList.map Diagnostic.asWarning ++ more, d.cause.isBadCall = true := by
  intro d hd
  rcases List.mem_append.mp hd with hd | hd
  · obtain ⟨e, he, rfl⟩ := List.mem_map.mp hd
    exact (h.errors e he).cause
  · exact h.more d hd

/-- The bad calls that the lenient run has entered. -/
theorem filter_isBadCall (h : Ahead base more lenient strict)
    (hbase : ∀ d ∈ base, d.cause.isDuplicate = true) :
    lenient.warnings.toList.filter (·.cause.isBadCall) =
      strict.errors.toList.map Diagnostic.asWarning ++ more := by
  rw [h.entries, List.append_assoc, List.filter_append, List.filter_eq_self.mpr h.isBadCall_of_mem,
    List.filter_eq_nil_iff.mpr, List.nil_append]
  intro d hd
  simp [Cause.isBadCall_of_isDuplicate (hbase d hd)]

/-- The repeated declarations that it has entered. -/
theorem filter_isDuplicate (h : Ahead base more lenient strict)
    (hbase : ∀ d ∈ base, d.cause.isDuplicate = true) :
    lenient.warnings.toList.filter (·.cause.isDuplicate) = base := by
  rw [h.entries, List.append_assoc, List.filter_append, List.filter_eq_self.mpr hbase,
    List.filter_eq_nil_iff.mpr, List.append_nil]
  intro d hd
  simp [Cause.isDuplicate_of_isBadCall (h.isBadCall_of_mem d hd)]

/-- The errors of the strict run are the warnings of the lenient one. -/
theorem map_asError (h : Ahead base more lenient strict) :
    (strict.errors.toList.map Diagnostic.asWarning).map Diagnostic.asError =
      strict.errors.toList := by
  rw [List.map_map]
  conv_rhs => rw [← List.map_id strict.errors.toList]
  exact List.map_congr_left fun d hd => (h.errors d hd).asError_asWarning

end Expansion.Ahead

/-- The same options for a strict session. -/
def Options.asStrict (options : Options) : Options := { options with strict := true }

/-- The same options for a lenient session. -/
def Options.asLenient (options : Options) : Options := { options with strict := false }

/-- **A strict and a lenient expander**: both do the same, or the strict one stops with a full
ledger. -/
theorem expand_paired (options : Options) (program : Program) :
    let lenient := options.asLenient.expander.expand program
    let strict := options.asStrict.expander.expand program
    ∃ base more, (∀ d ∈ base, d.cause.isDuplicate = true) ∧
      Ahead base more lenient.expander.ledger strict.expander.ledger ∧
      ((more = [] ∧ strict.outcome = lenient.outcome ∧
          strict.expander.passes = lenient.expander.passes ∧
          strict.expander.calls = lenient.expander.calls ∧
          (strict.expander.ledger.errors.size = 0 ∨
            (strict.expander.ledger.errors.size : Int) < options.capacity)) ∨
        strict.outcome = .error (.tooMany options.capacity) ∧
          (strict.expander.ledger.errors.size : Int) = max 1 options.capacity) := by
  have hbase : ∀ d ∈ (Table.collect program).2, d.cause.isDuplicate = true := by
    intro d hd
    obtain ⟨name, first, hcause⟩ := Table.cause_of_mem_collectFrom hd
    rw [hcause]
    rfl
  have hstart : Abreast options.capacity (Table.collect program).2
      { ledger := (Table.collect program).2.foldl Ledger.addWarning
          { capacity := options.capacity } }
      { ledger := (Table.collect program).2.foldl Ledger.addWarning
          { capacity := options.capacity } } := by
    rw [Ledger.foldl_addWarning]
    constructor
    · constructor <;> simp
    · rfl
    · rfl
    · rfl
    · exact .inl rfl
  have hruns := passes_paired (Table.declares_collect program) options.limits 1
    (trace none program) (options.limits.passes - 1) hstart (Nat.zero_le _)
  obtain ⟨more, hmore⟩ := hruns.exists_ahead
  exact ⟨_, more, hbase, hmore⟩

/-- **A strict conversion returns a listing** if the lenient one returns it and has not entered
any bad call. -/
theorem convert_asStrict_iff (options : Options) (file source text : String) :
    convert options.asStrict file source = .ok text ↔
      convert options.asLenient file source = .ok text ∧
        ∀ d ∈ ((Session.new options.asLenient).convert file
          source).session.ledger.warnings.toList, d.cause.isBadCall = false := by
  rw [convert_eq_ok_iff, convert_eq_ok_iff]
  constructor
  · rintro ⟨p, is, hread, hreturns, hquiet, htext⟩
    obtain ⟨base, more, hbase, hahead, hagree | ⟨hstop, _⟩⟩ := expand_paired options p
    · obtain ⟨rfl, houtcome, _⟩ := hagree
      have hlenient := houtcome.symm.trans hreturns
      refine ⟨⟨p, is, hread, hlenient, (expand_entered rfl hlenient).1, htext⟩, ?_⟩
      have hbad := hahead.filter_isBadCall hbase
      rw [hquiet] at hbad
      rw [(convert_of_read _ hread).1]
      simpa using hbad
    · cases hreturns.symm.trans hstop
  · rintro ⟨⟨p, is, hread, hreturns, _, htext⟩, hclean⟩
    rw [(convert_of_read _ hread).1] at hclean
    obtain ⟨base, more, hbase, hahead, hcases⟩ := expand_paired options p
    have hbad := hahead.filter_isBadCall hbase
    rw [List.filter_eq_nil_iff.mpr (by simpa using hclean), eq_comm, List.append_eq_nil_iff,
      List.map_eq_nil_iff] at hbad
    have hquiet : (options.asStrict.expander.expand p).expander.ledger.errors = #[] :=
      Array.toList_eq_nil_iff.mp hbad.1
    rcases hcases with ⟨_, houtcome, _⟩ | ⟨_, hfull⟩
    · exact ⟨p, is, hread, houtcome.trans hreturns, hquiet, htext⟩
    · rw [hquiet, Array.size_empty] at hfull
      omega

/-- **Strict is lenient plus a stop.**  Let `found` be the bad calls that a lenient run enters
before it returns or gives up.  If the ledger has room for them, a strict run does the same and
enters them as errors; if not, it stops after as many of them as the ledger takes, and takes
at least one.  So a strict conversion returns a listing if and only if the lenient one returns
it without any bad call. -/
theorem strict_eq_lenient_until_full (options : Options) (program : Program) :
    let lenient := options.asLenient.expander.expand program
    let strict := options.asStrict.expander.expand program
    let found := lenient.expander.ledger.warnings.toList.filter (·.cause.isBadCall)
    (found = [] ∨ (found.length : Int) < options.capacity →
      strict.outcome = lenient.outcome ∧ strict.expander.passes = lenient.expander.passes ∧
        strict.expander.calls = lenient.expander.calls ∧
        strict.expander.ledger.errors.toList = found.map Diagnostic.asError ∧
        strict.expander.ledger.warnings.toList =
          lenient.expander.ledger.warnings.toList.filter (·.cause.isDuplicate)) ∧
    (found ≠ [] ∧ options.capacity ≤ (found.length : Int) →
      strict.outcome = .error (.tooMany options.capacity) ∧
        strict.expander.ledger.errors.toList =
          (found.take (max 1 options.capacity).toNat).map Diagnostic.asError) ∧
    ∀ file source text, convert options.asStrict file source = .ok text ↔
      convert options.asLenient file source = .ok text ∧
        ∀ d ∈ ((Session.new options.asLenient).convert file
          source).session.ledger.warnings.toList, d.cause.isBadCall = false := by
  have hpaired := expand_paired options program
  dsimp only at hpaired ⊢
  generalize options.asLenient.expander.expand program = lenient at hpaired ⊢
  generalize options.asStrict.expander.expand program = strict at hpaired ⊢
  obtain ⟨base, more, hbase, hahead, hcases⟩ := hpaired
  rw [hahead.filter_isBadCall hbase, hahead.filter_isDuplicate hbase]
  generalize hfound : strict.expander.ledger.errors.toList.map Diagnostic.asWarning ++ more = found
  have hlength : found.length = strict.expander.ledger.errors.size + more.length := by
    rw [← hfound]
    simp
  have hnil : found = [] ↔ found.length = 0 := List.length_eq_zero_iff.symm
  refine ⟨fun hroom => ?_, fun ⟨hsome, hmany⟩ => ?_, convert_asStrict_iff options⟩
  · rcases hcases with ⟨rfl, houtcome, hpasses, hcalls, _⟩ | ⟨_, hfull⟩
    · refine ⟨houtcome, hpasses, hcalls, ?_, ?_⟩
      · rw [← hfound, List.append_nil, hahead.map_asError]
      · exact hahead.warnings
    · rw [hnil] at hroom
      omega
  · rw [ne_eq, hnil] at hsome
    rcases hcases with ⟨rfl, _, _, _, hroom⟩ | ⟨hstop, hfull⟩
    · rw [List.length_nil, Nat.add_zero] at hlength
      omega
    · refine ⟨hstop, ?_⟩
      have htake : (max 1 options.capacity).toNat =
          (strict.expander.ledger.errors.toList.map Diagnostic.asWarning).length := by
        rw [← hfull, List.length_map, Array.length_toList]
        rfl
      rw [← hfound, htake, List.take_left, hahead.map_asError]

/-- A macro that makes a bad call and calls itself again, and a call of it. -/
def relentless : Program :=
  [.declaration "F" ["a"] [] none,
   .declaration "R" [] [.call ⟨"F", [], none⟩, .call ⟨"R", [], none⟩] none,
   .call ⟨"R", [], none⟩]

/-- Options with few passes and room for two errors. -/
def impatient : Options := { limits := { passes := 4, calls := 9 }, capacity := 2 }

/-- A lenient run of `relentless` enters three bad calls and gives up; a strict run stops over
the second one. -/
theorem strict_relentless :
    let lenient := impatient.asLenient.expander.expand relentless
    let strict := impatient.asStrict.expander.expand relentless
    let found := lenient.expander.ledger.warnings.toList.filter (·.cause.isBadCall)
    lenient.outcome.isOk = false ∧ found.length = 3 ∧ strict.outcome = .error (.tooMany 2) ∧
      strict.expander.ledger.errors.toList = (found.take 2).map Diagnostic.asError := by
  have hlenient : (impatient.asLenient.expander.expand relentless).outcome.isOk = false := by
    decide +kernel
  have hfound : ((impatient.asLenient.expander.expand
      relentless).expander.ledger.warnings.toList.filter (·.cause.isBadCall)).length = 3 := by
    decide +kernel
  have hstops := (strict_eq_lenient_until_full impatient relentless).2.1
  dsimp only at hstops ⊢
  generalize List.filter _ _ = found at hfound hstops ⊢
  have hmany : found ≠ [] ∧ impatient.capacity ≤ (found.length : Int) := by
    constructor
    · exact List.ne_nil_of_length_eq_add_one hfound
    · rw [hfound]
      decide
  exact ⟨hlenient, hfound, hstops hmany⟩

end MacroAsm
