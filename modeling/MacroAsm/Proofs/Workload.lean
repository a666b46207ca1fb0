import Mathlib.Algebra.GroupWithZero.Nat
import Mathlib.Data.List.Basic
import MacroAsm.Proofs.Outcome

/-!
# MacroAsm.Proofs.Workload

How much work an expansion has in hand.  A pass keeps its instructions, drops what is neither
an instruction nor a call, and puts at most the largest body in place of a call that it counts;
bad calls are not counted, but nothing takes their place.  So after every pass the number of
items is bounded by the number of calls expanded so far, and the instructions among them are
those of the program and those of the bodies that were put in.

* `Completed` — the items and the state that an expansion has after a pass;
* `length_flatMap_unfold_le`, `length_instructions_flatMap_unfold` — what one pass adds;
* `Completed.tally` — what all passes so far have added;
* `expansion_work_bounded` — the bound, and the exact count of what is returned.
-/

namespace MacroAsm

open Program Expansion

/-! ## Passes that came to their end -/

/-- The items and the state that an expansion has when its pass with a given number has come to
its end; pass zero is the start.  It goes on while it may and calls are left. -/
inductive Completed (e : Expander) (program : Program) : Nat → List Traced → State → Prop where
  | start :
      Completed e program 0 (trace none program)
        { ledger := (Table.collect program).2.foldl Ledger.addWarning e.ledger }
  | next {k : Nat} {ts : List Traced} {out : Array Traced} {s s' : State} :
      Completed e program k ts s → k < e.settings.limits.passes → (k = 0 ∨ pending ts ≠ []) →
      pass e.settings (Table.collect program).1 (k + 1) #[] ts s = (s', .ok out) →
      Completed e program (k + 1) out.toList s'

/-- The rest of a run completes passes of its own, all of them but perhaps the last; if it
returns, also the last, with the instructions that it returns. -/
theorem Completed.passes {e : Expander} {program : Program} {k more : Nat} {ts : List Traced}
    {s : State} (h : Completed e program k ts s) (hk : k + more + 1 = e.settings.limits.passes)
    (hleft : k = 0 ∨ pending ts ≠ []) :
    let r := passes e.settings (Table.collect program).1 (k + 1) ts s more
    (∀ j, k ≤ j → j < r.passes → ∃ ts s, Completed e program j ts s) ∧
      ∀ is, r.outcome = .ok is → ∃ ts, Completed e program r.passes ts r.state ∧
        is = instructions (ts.map (·.item)) := by
  induction more using Nat.strongRecOn generalizing k ts s with
  | ind more ih =>
    have hfirst {j : Nat} (hkj : k ≤ j) (hj : j < k + 1) : ∃ ts s, Completed e program j ts s := by
      obtain rfl : j = k := by omega
      exact ⟨ts, s, h⟩
    unfold Expansion.passes
    cases hpass : pass e.settings (Table.collect program).1 (k + 1) #[] ts s with
    | mk s' outcome =>
      cases outcome with
      | error d => exact ⟨fun j => hfirst, fun is his => by cases his⟩
      | ok out =>
        have hnext := h.next (by omega) hleft hpass
        dsimp only
        by_cases hempty : pending out.toList = []
        · rw [if_pos (List.isEmpty_iff.mpr hempty)]
          refine ⟨fun j => hfirst, fun is his => ⟨out.toList, hnext, ?_⟩⟩
          rw [instructions, List.filterMap_map]
          exact (Except.ok.inj his).symm
        · rw [if_neg fun h => hempty (List.isEmpty_iff.mp h)]
          cases more with
          | zero => exact ⟨fun j => hfirst, fun is his => by cases his⟩
          | succ more =>
            obtain ⟨hrest, hreturns⟩ := ih more (Nat.lt_succ_self more) hnext (by omega)
              (.inr hempty)
            refine ⟨fun j hkj hj => ?_, hreturns⟩
            by_cases hj' : j < k + 1
            · exact hfirst hkj hj'
            · exact hrest j (by omega) hj

/-! ## What a pass adds -/

/-- The length of the largest body in a table. -/
def Table.largestBody (table : Table) : Nat := (table.map fun d => d.body.length).foldr max 0

theorem Table.length_body_le {table : Table} {d : Declaration} (h : d ∈ table) :
    d.body.length ≤ table.largestBody := by
  induction table with
  | nil => cases h
  | cons d' table ih =>
    rw [largestBody, List.map_cons, List.foldr_cons]
    rcases List.mem_cons.mp h with rfl | h
    · exact Nat.le_max_left _ _
    · exact (ih h).trans (Nat.le_max_right _ _)

namespace Program

variable (program : Program)

/-- How many instructions stand in the body that a call runs, those of further calls apart. -/
def bodyInstructions (c : Call) : Nat :=
  match program.target? c with
  | none => 0
  | some d => (instructions d.body).length

theorem length_body_le_of_target {c : Call} {d : Declaration} (h : program.target? c = some d) :
    d.body.length ≤ (Table.collect program).1.largestBody := by
  have hget : (Table.collect program).1.get? c.name = some d :=
    (Table.declares_collect program c.name).trans (target?_eq_some.mp h).1
  exact Table.length_body_le (List.mem_of_find?_eq_some hget)

theorem instructions_append (xs ys : List Item) :
    instructions (xs ++ ys) = instructions xs ++ instructions ys :=
  List.filterMap_append

theorem instructions_map_item (scope : Scope) (items : List Item) :
    instructions (items.map scope.item) = (instructions items).map scope.instruction := by
  rw [instructions, instructions, List.filterMap_map, List.map_filterMap]
  refine List.filterMap_congr fun x _ => ?_
  cases x <;> rfl

/-- A call that is counted gives way to at most the largest body, and any other item to at most
one. -/
theorem length_unfold_le (x : Item) :
    (program.unfold x).length ≤
      1 + ((calls [x]).filter program.expands).length *
        (Table.collect program).1.largestBody := by
  cases x with
  | call c =>
    cases ht : program.target? c with
    | none => simp [unfold, ht]
    | some d =>
      have hbody := program.length_body_le_of_target ht
      simpa [unfold, expands, ht] using hbody.trans (Nat.le_add_left _ 1)
  | instruction i => simp [unfold]
  | comment text place => simp [unfold]
  | declaration name parameters body place => simp [unfold]

/-- **A pass adds at most the largest body** for every call that it counts. -/
theorem length_flatMap_unfold_le (items : List Item) :
    (items.flatMap program.unfold).length ≤
      items.length +
        ((calls items).filter program.expands).length * (Table.collect program).1.largestBody := by
  induction items with
  | nil => simp
  | cons x items ih =>
    have hx := program.length_unfold_le x
    rw [← List.singleton_append, List.flatMap_append, List.flatMap_singleton, calls_append,
      List.filter_append, List.length_append, List.length_append, List.length_append,
      List.length_singleton, Nat.add_mul]
    omega

/-- A call that is counted gives way to the instructions of its body, an instruction to itself,
and any other item to no instruction. -/
theorem length_instructions_unfold (x : Item) :
    (instructions (program.unfold x)).length =
      (instructions [x]).length +
        (((calls [x]).filter program.expands).map program.bodyInstructions).sum := by
  cases x with
  | call c =>
    have hitem : instructions [.call c] = [] := rfl
    have hnil : instructions [] = [] := rfl
    cases ht : program.target? c with
    | none => simp [unfold, expands, ht, hitem, hnil]
    | some d => simp [unfold, expands, bodyInstructions, ht, hitem, instructions_map_item]
  | instruction i => simp [unfold]
  | comment text place => rfl
  | declaration name parameters body place => rfl

/-- **No instruction is lost or doubled by a pass**: it adds those of the bodies it puts in. -/
theorem length_instructions_flatMap_unfold (items : List Item) :
    (instructions (items.flatMap program.unfold)).length =
      (instructions items).length +
        (((calls items).filter program.expands).map program.bodyInstructions).sum := by
  induction items with
  | nil => rfl
  | cons x items ih =>
    have hx := program.length_instructions_unfold x
    rw [← List.singleton_append, List.flatMap_append, List.flatMap_singleton, calls_append,
      instructions_append, instructions_append, List.length_append, List.length_append,
      List.filter_append, List.map_append, List.sum_append, hx, ih]
    omega

end Program

/-! ## What all passes add -/

/-- What an expansion has in hand after its first `k` passes. -/
structure Tally (e : Expander) (program : Program) (k : Nat) (ts : List Traced) (s : State) :
    Prop where
  pending : pending ts = program.layer k program.calls
  calls : s.calls = (program.agenda k program.calls).length
  limit : s.calls ≤ e.settings.limits.calls
  length : ts.length ≤ program.length + s.calls * (Table.collect program).1.largestBody
  instructions : (instructions (ts.map (·.item))).length =
    program.instructions.length +
      ((program.agenda k program.calls).map program.bodyInstructions).sum

theorem tally_start (e : Expander) (program : Program) (ledger : Ledger Diagnostic) :
    Tally e program 0 (trace none program) { ledger := ledger } where
  pending := pending_trace none program
  calls := rfl
  limit := Nat.zero_le _
  length := by simp [trace]
  instructions := by simp [map_item_trace, agenda]

/-- **One more pass** that comes to its end. -/
theorem Tally.next {e : Expander} {program : Program} {k number : Nat} {ts : List Traced}
    {out : Array Traced} {s s' : State} (h : Tally e program k ts s)
    (hpass : pass e.settings (Table.collect program).1 number #[] ts s = (s', .ok out)) :
    Tally e program (k + 1) out.toList s' := by
  have hend : PassEnd program e.settings number s.calls ts #[]
      (pass e.settings (Table.collect program).1 number #[] ts s) :=
    pass_ends (Table.declares_collect program) number ts #[] s h.limit
  rw [hpass] at hend
  cases hend with
  | done hcalls hlimit hout =>
    have hout : out.toList = ts.flatMap (Traced.unfold program) := by simpa using hout
    have hitems : out.toList.map (·.item) = (ts.map (·.item)).flatMap program.unfold := by
      rw [hout, map_item_flatMap_unfold]
    rw [pending_eq_calls] at hcalls
    have hlayer : Program.calls (ts.map (·.item)) = program.layer k program.calls := by
      rw [← pending_eq_calls, h.pending]
    constructor
    · rw [hout, pending_flatMap_unfold, h.pending, layer_succ]
    · rw [hcalls, h.calls, hlayer, agenda_succ, List.length_append]
    · exact hlimit
    · have hadded := program.length_flatMap_unfold_le (ts.map (·.item))
      have hlength := h.length
      rw [← hitems, List.length_map, List.length_map] at hadded
      rw [hcalls, Nat.add_mul]
      omega
    · rw [hitems, length_instructions_flatMap_unfold, h.instructions, hlayer, agenda_succ,
        List.map_append, List.sum_append, Nat.add_assoc]

/-- **After every pass**: the items in hand are bounded by the calls expanded so far, and their
instructions are accounted for. -/
theorem Completed.tally {e : Expander} {program : Program} {k : Nat} {ts : List Traced}
    {s : State} (h : Completed e program k ts s) : Tally e program k ts s := by
  induction h with
  | start => exact tally_start e program _
  | next _ _ _ hpass ih => exact ih.next hpass

/-- **The limit on calls bounds the work.**  After every pass that an expansion completes, strict
or not and whatever its limits are, there are at most as many items as the program has, and as
many as the largest body in effect for each call expanded so far; these calls are within the
limit.  The instructions in hand are as many as the program has at its top and the bodies of all
calls expanded so far have of their own, and those in hand after the last pass are returned. -/
theorem expansion_work_bounded (e : Expander) (program : Program) :
    let r := e.expand program
    (∀ k ts s, Completed e program k ts s →
      let expanded := program.agenda k program.calls
      expanded.length = s.calls ∧ s.calls ≤ e.settings.limits.calls ∧
      ts.length ≤ program.length + s.calls * r.expander.table.largestBody ∧
      (instructions (ts.map (·.item))).length =
        program.instructions.length + (expanded.map program.bodyInstructions).sum) ∧
    (∀ k < r.expander.passes, ∃ ts s, Completed e program k ts s) ∧
    ∀ is, r.outcome = .ok is →
      let expanded := program.agenda r.expander.passes program.calls
      (∃ ts s, Completed e program r.expander.passes ts s ∧ s.calls = r.expander.calls ∧
        is = instructions (ts.map (·.item))) ∧
      expanded.length = r.expander.calls ∧
      is.length = program.instructions.length + (expanded.map program.bodyInstructions).sum := by
  intro r
  have hstart : Completed e program 0 (trace none program)
      { ledger := (Table.collect program).2.foldl Ledger.addWarning e.ledger } := .start
  have hlimit : 0 + (e.settings.limits.passes - 1) + 1 = e.settings.limits.passes := by
    have := e.settings.limits.passes_pos
    omega
  obtain ⟨hpasses, hreturns⟩ := hstart.passes hlimit (.inl rfl)
  refine ⟨fun k ts s h => ?_, fun k hk => hpasses k (Nat.zero_le k) hk, fun is his => ?_⟩
  · have htally := h.tally
    exact ⟨htally.calls.symm, htally.limit, htally.length, htally.instructions⟩
  · obtain ⟨ts, hlast, hinstructions⟩ := hreturns is his
    refine ⟨⟨ts, _, hlast, rfl, hinstructions⟩, hlast.tally.calls.symm, ?_⟩
    rw [hinstructions]
    exact hlast.tally.instructions

/-- `chain` after its first pass and in the end, when two calls have been expanded that bring in
one instruction each. -/
theorem chain_work_bounded :
    let e : Expander := { settings := { limits := ⟨2, 2, by decide, by decide⟩ } }
    (∃ ts s, Completed e chain 1 ts s ∧ s.calls ≤ 2 ∧ ts.length ≤ 3 + s.calls * 2) ∧
    ∃ is, (e.expand chain).outcome = .ok is ∧ (e.expand chain).expander.calls = 2 ∧
      (chain.agenda 2 chain.calls).map chain.bodyInstructions = [1, 1] ∧ is.length = 2 := by
  intro e
  obtain ⟨hbound, hcompleted, hreturned⟩ := expansion_work_bounded e chain
  constructor
  · obtain ⟨ts, s, h⟩ := hcompleted 1 (by decide)
    obtain ⟨_, hlimit, hlength, _⟩ := hbound 1 ts s h
    exact ⟨ts, s, h, hlimit, hlength⟩
  · obtain ⟨_, _, hlength⟩ := hreturned
      [{ opcode := .add, operand := some "a" }, { opcode := .sto, operand := some "y" }] rfl
    exact ⟨_, rfl, rfl, rfl, hlength⟩

end MacroAsm
