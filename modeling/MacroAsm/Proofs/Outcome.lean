import Mathlib.Data.String.Basic
import Mathlib.Order.Bounds.Defs
import MacroAsm.Proofs.Passes

/-!
# MacroAsm.Proofs.Outcome

What expanding a program comes to, said without passes.

* `expand_eq_ok_iff_means` — a lenient expander returns if the tree of calls is no
  deeper than its limit on passes and holds no more calls to expand than its limit
  on calls, and then it returns what evaluation depth first gives;
* `expand_error_of_tree` — otherwise the tree decides which error is given.

Both are read off `expand_ends`, which puts the ends of a run in terms of the
program.
-/

namespace MacroAsm

open Program Expansion

/-! ## Names in order -/

namespace Diagnostic

/-- Names that are already in order lose their repetitions. -/
theorem pairwise_lt_eraseRepsBy_loop (x : String) (xs acc : List String)
    (hx : (x :: xs).Pairwise (· ≤ ·)) (hacc : acc.Pairwise (· > ·)) (hlt : ∀ y ∈ acc, y < x) :
    (List.eraseRepsBy.loop (· == ·) x xs acc).Pairwise (· < ·) := by
  induction xs generalizing x acc with
  | nil =>
      rw [List.eraseRepsBy.loop, List.pairwise_reverse]
      exact List.pairwise_cons.mpr ⟨hlt, hacc⟩
  | cons z xs ih =>
      obtain ⟨hle, hxs⟩ := List.pairwise_cons.mp hx
      rw [List.eraseRepsBy.loop]
      cases hz : x == z with
      | true =>
          rw [beq_iff_eq.mp hz]
          refine ih z acc hxs hacc fun y hy => ?_
          rw [← beq_iff_eq.mp hz]
          exact hlt y hy
      | false =>
          have hxz : x < z := lt_of_le_of_ne (hle z List.mem_cons_self) (ne_of_beq_false hz)
          refine ih z (x :: acc) hxs (List.pairwise_cons.mpr ⟨hlt, hacc⟩) fun y hy => ?_
          cases List.mem_cons.mp hy with
          | inl he => rw [he]; exact hxz
          | inr hm => exact (hlt y hm).trans hxz

theorem mem_eraseRepsBy_loop (name x : String) (xs acc : List String) :
    name ∈ List.eraseRepsBy.loop (· == ·) x xs acc ↔ name ∈ acc ∨ name ∈ x :: xs := by
  induction xs generalizing x acc with
  | nil => simp [List.eraseRepsBy.loop, or_comm]
  | cons z xs ih =>
      rw [List.eraseRepsBy.loop]
      cases hz : x == z with
      | true =>
          rw [ih, beq_iff_eq.mp hz]
          simp
      | false =>
          rw [ih]
          simp only [List.mem_cons]
          tauto

/-- The names of a diagnostic stand in order, each once. -/
theorem pairwise_lt_distinctNames (names : List String) :
    (distinctNames names).Pairwise (· < ·) := by
  have hsorted : (names.mergeSort fun x y => decide (x ≤ y)).Pairwise (· ≤ ·) := by
    have h : (names.mergeSort fun x y => decide (x ≤ y)).Pairwise (fun x y => decide (x ≤ y)) := by
      refine List.pairwise_mergeSort ?_ ?_ names
      · intro a b c hab hbc
        exact decide_eq_true (le_trans (of_decide_eq_true hab) (of_decide_eq_true hbc))
      · intro a b
        simpa using le_total a b
    exact h.imp of_decide_eq_true
  unfold distinctNames List.eraseReps
  cases hn : names.mergeSort fun x y => decide (x ≤ y) with
  | nil => exact List.Pairwise.nil
  | cons x xs =>
      rw [hn] at hsorted
      exact pairwise_lt_eraseRepsBy_loop x xs [] hsorted .nil (by simp)

/-- No name is lost and none is added. -/
theorem mem_distinctNames {name : String} {names : List String} :
    name ∈ distinctNames names ↔ name ∈ names := by
  have hmem : name ∈ (names.mergeSort fun x y => decide (x ≤ y)) ↔ name ∈ names :=
    List.mem_mergeSort
  rw [← hmem]
  unfold distinctNames List.eraseReps
  cases names.mergeSort fun x y => decide (x ≤ y) with
  | nil => rfl
  | cons x xs =>
      rw [List.eraseRepsBy, mem_eraseRepsBy_loop]
      simp

@[simp] theorem distinctNames_singleton (name : String) : distinctNames [name] = [name] := by
  rw [distinctNames, List.mergeSort_singleton]
  rfl

end Diagnostic

/-! ## The ends of a run -/

/-- The calls of a program are those of its items as a run traces them. -/
theorem pending_trace (origin : Option Location) (items : List Item) :
    pending (trace origin items) = calls items := by
  rw [pending_eq_calls, map_item_trace]

/-- What an expander gives back for a program is one of the ends of a run. -/
theorem expand_ends (e : Expander) (program : Program) :
    ∃ run, RunEnd program e.settings 1 0 (e.settings.limits.passes - 1) (trace none program) run ∧
      (e.expand program).outcome = run.outcome ∧
      (e.expand program).expander.passes = run.passes ∧
      (e.expand program).expander.calls = run.state.calls := by
  have h : RunEnd program e.settings 1 0 (e.settings.limits.passes - 1) (trace none program)
      (run e.settings (Table.collect program).1
        { ledger := (Table.collect program).2.foldl Ledger.addWarning e.ledger } program) :=
    passes_ends (Table.declares_collect program) 1 (trace none program)
      { ledger := (Table.collect program).2.foldl Ledger.addWarning e.ledger }
      (e.settings.limits.passes - 1) (Nat.zero_le _)
  exact ⟨_, h, rfl, rfl, rfl⟩

/-! ## Returning -/

/-- What an expander returns is the meaning of the program. -/
theorem means_of_expand_eq_ok {e : Expander} {program : Program} {is : List Instruction}
    (hok : (e.expand program).outcome = .ok is) :
    ∃ m, Means program .top program m ∧ m.depth ≤ e.settings.limits.passes ∧
      m.expanded ≤ e.settings.limits.calls ∧ m.instructions = is := by
  obtain ⟨run, hend, hout, _, _⟩ := expand_ends e program
  rw [hout] at hok
  cases hend with
  | @finished s m hm hdepth hcalls hlimit =>
      rw [map_item_trace] at hm
      have hpos := e.settings.limits.passes_pos
      exact ⟨m, hm, by omega, by omega, Except.ok.inj hok⟩
  | overspent _ _ _ _ => cases hok
  | unfinished _ _ _ => cases hok
  | stopped _ _ _ => cases hok

/-- An expander that returns had passes enough for all layers of the tree, and was
allowed to expand all calls in them. -/
theorem layers_of_expand_eq_ok {e : Expander} {program : Program} {is : List Instruction}
    (hok : (e.expand program).outcome = .ok is) :
    program.layer e.settings.limits.passes program.calls = [] ∧
      (program.agenda e.settings.limits.passes program.calls).length ≤ e.settings.limits.calls := by
  obtain ⟨m, hm, hdepth, hexpanded, _⟩ := means_of_expand_eq_ok hok
  exact Means.exists_iff_layers.mp ⟨m, hm, hdepth, hexpanded⟩

/-- A lenient expander returns the meaning of a program whose tree of calls is within
its limits. -/
theorem expand_of_means {e : Expander} {program : Program} {m : Meaning}
    (h : e.settings.strict = false) (hm : Means program .top program m)
    (hdepth : m.depth ≤ e.settings.limits.passes)
    (hexpanded : m.expanded ≤ e.settings.limits.calls) :
    (e.expand program).outcome = .ok m.instructions ∧
      (e.expand program).expander.passes = max 1 m.depth ∧
      (e.expand program).expander.calls = m.expanded := by
  obtain ⟨run, hend, hout, hpasses, hcalls⟩ := expand_ends e program
  rw [hout, hpasses, hcalls]
  cases hend with
  | finished hm' _ hspent _ =>
      rw [map_item_trace] at hm'
      obtain rfl := hm'.unique hm
      refine ⟨rfl, ?_, ?_⟩
      · dsimp only
        omega
      · rw [hspent, Nat.zero_add]
  | @overspent s k c _ _ hc _ =>
      rw [pending_trace, Nat.sub_zero] at hc
      have hlt := (List.getElem?_eq_some_iff.mp hc).1
      have hle := hm.length_agenda_le (k + 1)
      omega
  | unfinished hlayer _ _ =>
      have hpos := e.settings.limits.passes_pos
      rw [pending_trace, Nat.sub_add_cancel hpos] at hlayer
      exact absurd ((hm.layer_eq_nil_iff _).mpr hdepth) hlayer
  | stopped hstrict _ _ =>
      rw [h] at hstrict
      contradiction

/-- **Expansion is evaluation**: a lenient expander returns exactly when the tree of
calls is within both limits, and what it returns is the meaning of the program.  It
then made a pass for each layer of the tree, but at least one, and expanded each
call that has a macro to run. -/
theorem expand_eq_ok_iff_means (e : Expander) (program : Program)
    (h : e.settings.strict = false) :
    ((∃ is, (e.expand program).outcome = .ok is) ↔
      program.layer e.settings.limits.passes program.calls = [] ∧
        (program.agenda e.settings.limits.passes program.calls).length ≤ e.settings.limits.calls) ∧
    (∀ is, (e.expand program).outcome = .ok is ↔
      ∃ m, Means program .top program m ∧ m.depth ≤ e.settings.limits.passes ∧
        m.expanded ≤ e.settings.limits.calls ∧ m.instructions = is) ∧
    (∀ m, Means program .top program m → m.depth ≤ e.settings.limits.passes →
      m.expanded ≤ e.settings.limits.calls →
      (e.expand program).expander.passes = max 1 m.depth ∧
        (e.expand program).expander.calls = m.expanded) := by
  have hreturns : ∀ is, (e.expand program).outcome = .ok is ↔
      ∃ m, Means program .top program m ∧ m.depth ≤ e.settings.limits.passes ∧
        m.expanded ≤ e.settings.limits.calls ∧ m.instructions = is := by
    intro is
    constructor
    · exact means_of_expand_eq_ok
    · rintro ⟨m, hm, hdepth, hexpanded, rfl⟩
      exact (expand_of_means h hm hdepth hexpanded).1
  refine ⟨?_, hreturns, fun m hm hdepth hexpanded => (expand_of_means h hm hdepth hexpanded).2⟩
  constructor
  · rintro ⟨is, hok⟩
    exact layers_of_expand_eq_ok hok
  · intro hlayers
    obtain ⟨m, hm, hdepth, hexpanded⟩ := Means.exists_iff_layers.mpr hlayers
    exact ⟨m.instructions, (hreturns _).mpr ⟨m, hm, hdepth, hexpanded, rfl⟩⟩

/-- A macro that calls another one and takes a parameter twice, and a call of it. -/
def chain : Program :=
  [.declaration "G" ["x"] [.instruction { opcode := .add, operand := some "x" }] none,
   .declaration "F" ["x", "x"]
     [.call { name := "G", arguments := ["x"] },
      .instruction { opcode := .sto, operand := some "y" }] none,
   .call { name := "F", arguments := ["a", "b"] }]

/-- The tree of `chain` fits into two passes and two calls exactly. -/
theorem expand_chain :
    let e : Expander := { settings := { limits := ⟨2, 2, by decide, by decide⟩ } }
    e.settings.strict = false ∧
      (e.expand chain).outcome =
        .ok [{ opcode := .add, operand := some "a" }, { opcode := .sto, operand := some "y" }] ∧
      (e.expand chain).expander.passes = 2 ∧ (e.expand chain).expander.calls = 2 := by
  intro e
  obtain ⟨_, hreturns, hcounts⟩ := expand_eq_ok_iff_means e chain rfl
  have hm : Means chain .top chain _ :=
    .declaration (.declaration (.expanded rfl
      (.expanded rfl (.instruction .nil) (.instruction .nil)) .nil))
  exact ⟨rfl, (hreturns _).mpr ⟨_, hm, le_rfl, le_rfl, rfl⟩, hcounts _ hm le_rfl le_rfl⟩

/-! ## Giving up -/

/-- A run makes at least one pass and no more than its limit, and it stops at the
first call that is one too many. -/
theorem passes_and_calls_within_limits (e : Expander) (program : Program) :
    1 ≤ (e.expand program).expander.passes ∧
      (e.expand program).expander.passes ≤ e.settings.limits.passes ∧
      (e.expand program).expander.calls ≤ e.settings.limits.calls + 1 := by
  obtain ⟨run, hend, _, hpasses, hcalls⟩ := expand_ends e program
  have hpos := e.settings.limits.passes_pos
  rw [hpasses, hcalls]
  obtain ⟨hfirst, hlast, hlimit⟩ := hend.within_limits
  exact ⟨hfirst, by omega, hlimit⟩

/-- A lenient expander gives up for one of two reasons: it meets one call too many in
layer `k + 1`, or calls are left after its last pass. -/
theorem expand_eq_error_cases {e : Expander} {program : Program} {d : Diagnostic}
    (h : e.settings.strict = false) (herror : (e.expand program).outcome = .error d) :
    (∃ k c, k < e.settings.limits.passes ∧
      (program.agenda k program.calls).length ≤ e.settings.limits.calls ∧
      (program.agenda (k + 1) program.calls)[e.settings.limits.calls]? = some c ∧
      d = .endless (k + 1 : Nat) [c.name] (some e.settings.limits.calls) ∧
      (e.expand program).expander.passes = k + 1 ∧
      (e.expand program).expander.calls = e.settings.limits.calls + 1) ∨
    ((program.agenda e.settings.limits.passes program.calls).length ≤ e.settings.limits.calls ∧
      program.layer e.settings.limits.passes program.calls ≠ [] ∧
      d = .endless e.settings.limits.passes
        ((program.layer e.settings.limits.passes program.calls).map (·.name)) none) := by
  obtain ⟨run, hend, hout, hpasses, hcalls⟩ := expand_ends e program
  have hpos := e.settings.limits.passes_pos
  rw [hout] at herror
  rw [hpasses, hcalls]
  cases hend with
  | finished _ _ _ _ => cases herror
  | @overspent s k c hk hle hc hspent =>
      cases herror
      rw [pending_trace] at hle hc
      rw [Nat.zero_add] at hle
      rw [Nat.sub_zero] at hc
      rw [Nat.add_comm 1 k]
      exact .inl ⟨k, c, by omega, hle, hc, rfl, rfl, hspent⟩
  | unfinished hlayer hspent hlimit =>
      cases herror
      rw [pending_trace, Nat.sub_add_cancel hpos] at hlayer hspent
      rw [pending_trace, Nat.sub_add_cancel hpos, Nat.add_sub_cancel' hpos]
      exact .inr ⟨by omega, hlayer, rfl⟩
  | stopped hstrict _ _ =>
      rw [h] at hstrict
      contradiction

/-- **The tree decides the error**: if the first `k` layers hold more calls with a
macro to run than may be expanded, and no fewer layers do, a lenient expander stops in
pass `k` and names the first call that is one too many; if no `k` within the limit is
such, it returns unless calls are left after the last pass, which the error then names.
Strict or not, a run makes at least one pass and no more than its limit, and it counts
at most one call too many. -/
theorem expand_error_of_tree (e : Expander) (program : Program) :
    (e.settings.strict = false →
      (∀ k, IsLeast {k | k ≤ e.settings.limits.passes ∧
          e.settings.limits.calls < (program.agenda k program.calls).length} k →
        ∃ d c, (e.expand program).outcome = .error d ∧
          (program.agenda k program.calls)[e.settings.limits.calls]? = some c ∧
          d.cause = .endless k [c.name] (some e.settings.limits.calls) ∧
          (e.expand program).expander.passes = k ∧
          (e.expand program).expander.calls = e.settings.limits.calls + 1) ∧
      ((∀ k ≤ e.settings.limits.passes,
          (program.agenda k program.calls).length ≤ e.settings.limits.calls) →
        (program.layer e.settings.limits.passes program.calls = [] ∧
          ∃ is, (e.expand program).outcome = .ok is) ∨
        program.layer e.settings.limits.passes program.calls ≠ [] ∧
        ∃ d names, (e.expand program).outcome = .error d ∧
          d.cause = .endless e.settings.limits.passes names none ∧
          names.Pairwise (· < ·) ∧
          ∀ name, name ∈ names ↔
            ∃ c ∈ program.layer e.settings.limits.passes program.calls, c.name = name)) ∧
    1 ≤ (e.expand program).expander.passes ∧
    (e.expand program).expander.passes ≤ e.settings.limits.passes ∧
    (e.expand program).expander.calls ≤ e.settings.limits.calls + 1 := by
  refine ⟨fun h => ?_, passes_and_calls_within_limits e program⟩
  -- one pass more expands no fewer calls, so no limit that is kept was broken before
  have hmono : ∀ {j k}, j ≤ k →
      (program.agenda j program.calls).length ≤ (program.agenda k program.calls).length :=
    fun hjk => (agenda_mono hjk program program.calls).length_le
  cases hout : (e.expand program).outcome with
  | ok is =>
      obtain ⟨hlayer, hle⟩ := layers_of_expand_eq_ok hout
      refine ⟨fun k hk => ?_, fun _ => .inl ⟨hlayer, is, rfl⟩⟩
      exact absurd hk.1.2 (Nat.not_lt.mpr ((hmono hk.1.1).trans hle))
  | error d =>
      rcases expand_eq_error_cases h hout with
        ⟨n, c, hn, hle, hc, rfl, hpasses, hcalls⟩ | ⟨hle, hlayer, rfl⟩
      · have hlt := (List.getElem?_eq_some_iff.mp hc).1
        refine ⟨fun k hk => ?_, fun hall => absurd hlt (Nat.not_lt.mpr (hall (n + 1) hn))⟩
        have hupper : k ≤ n + 1 := hk.2 ⟨hn, hlt⟩
        have hlower : ¬ k ≤ n := fun hkn =>
          absurd hk.1.2 (Nat.not_lt.mpr ((hmono hkn).trans hle))
        obtain rfl : k = n + 1 := by omega
        refine ⟨_, c, rfl, hc, ?_, hpasses, hcalls⟩
        rw [Diagnostic.endless, Diagnostic.distinctNames_singleton]
      · refine ⟨fun k hk => ?_, fun _ => .inr ⟨hlayer, _, _, rfl, rfl, ?_, fun name => ?_⟩⟩
        · exact absurd hk.1.2 (Nat.not_lt.mpr ((hmono hk.1.1).trans hle))
        · exact Diagnostic.pairwise_lt_distinctNames _
        · rw [Diagnostic.mem_distinctNames, List.mem_map]

/-- A macro that calls itself twice, and a call of it. -/
def doubling : Program :=
  [.declaration "F" [] [.call { name := "F" }, .call { name := "F" }] none,
   .call { name := "F" }]

/-- The second pass of `doubling` meets a third call. -/
theorem expand_doubling :
    let e : Expander := { settings := { limits := ⟨5, 2, by decide, by decide⟩ } }
    e.settings.strict = false ∧
      IsLeast {k | k ≤ 5 ∧ 2 < (doubling.agenda k doubling.calls).length} 2 ∧
      ∃ d, (e.expand doubling).outcome = .error d ∧ d.cause = .endless 2 ["F"] (some 2) ∧
        (e.expand doubling).expander.passes = 2 ∧ (e.expand doubling).expander.calls = 3 := by
  intro e
  have hleast : IsLeast {k | k ≤ 5 ∧ 2 < (doubling.agenda k doubling.calls).length} 2 := by
    refine ⟨⟨by decide, by decide⟩, fun k hk => ?_⟩
    match k, hk with
    | 0, hk => exact absurd hk.2 (by decide)
    | 1, hk => exact absurd hk.2 (by decide)
    | k + 2, _ => exact Nat.le_add_left 2 k
  obtain ⟨hlimits, _⟩ := expand_error_of_tree e doubling
  obtain ⟨d, c, hout, hc, hcause, hpasses, hcalls⟩ := (hlimits rfl).1 2 hleast
  obtain rfl : { name := "F" } = c := Option.some.inj hc
  exact ⟨rfl, hleast, d, hout, hcause, hpasses, hcalls⟩

end MacroAsm
