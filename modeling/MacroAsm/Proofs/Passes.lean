import MacroAsm.Expansion.Expander
import MacroAsm.Proofs.Unfolding

/-!
# MacroAsm.Proofs.Passes

What a pass, and a whole run of passes, comes to in terms of the tree of calls.
A pass unfolds every call of its items, so pass `k` works off layer `k` of the
tree, and a run goes on until the tree has no more layers or one of the limits is
reached.

* `Bindings.item_ofLists`, `Table.declares_collect` — bindings are scopes, and the
  table of a program holds its first declarations;
* `pass_ends` — the ways in which a pass can end (`PassEnd`);
* `passes_ends` — the ways in which a run can end (`RunEnd`).
-/

namespace MacroAsm

open Program

/-! ## Bindings are scopes -/

namespace Bindings

/-- Pairs whose first parts differ from a name do not matter when it is looked
up. -/
theorem lookup_filter_ne {name p : String} (h : name ≠ p) (b : Bindings) :
    List.lookup name (b.filter fun x => (x.1 == p) = false) = b.lookup name := by
  induction b with
  | nil => rfl
  | cons x b ih =>
      obtain ⟨q, a⟩ := x
      by_cases hq : q = p
      · have hn : (name == q) = false := by rw [hq]; exact beq_false_of_ne h
        rw [List.filter_cons_of_neg (by simp [hq]), ih, List.lookup_cons, hn]
      · rw [List.filter_cons_of_pos (by simp [hq]), List.lookup_cons, List.lookup_cons, ih]

/-- Only the first pair with a name matters. -/
theorem lookup_eraseDupsBy (name : String) : (b : Bindings) →
    List.lookup name (b.eraseDupsBy fun x y => x.1 == y.1) = b.lookup name
  | [] => rfl
  | (p, a) :: b => by
      rw [List.eraseDupsBy_cons, List.lookup_cons, List.lookup_cons]
      cases hp : name == p with
      | true => rfl
      | false =>
          rw [lookup_eraseDupsBy name, lookup_filter_ne (ne_of_beq_false hp)]
termination_by b => b.length
decreasing_by
  rw [List.length_cons]
  exact Nat.lt_succ_of_le (List.length_filter_le _ _)

/-- Looking a name up in bindings is looking it up in the scope of the body. -/
theorem apply_ofLists (ps as : List String) :
    (ofLists ps as).apply = Scope.bind ps as := by
  funext name
  rw [apply, ofLists, lookup_eraseDupsBy]
  induction ps generalizing as with
  | nil => rfl
  | cons p ps ih =>
      cases as with
      | nil => rfl
      | cons a as =>
          rw [List.zip_cons_cons, List.lookup_cons, Scope.bind_cons_cons]
          by_cases h : name = p
          · simp [h]
          · rw [beq_false_of_ne h, if_neg h]
            exact ih as

theorem item_ofLists (ps as : List String) :
    (ofLists ps as).item = (Scope.bind ps as).item := by
  funext x
  cases x with
  | instruction i => simp only [item, instruction, Scope.item, Scope.instruction, apply_ofLists]
  | call c => simp only [item, call, Call.withArguments, Scope.item, Scope.call, apply_ofLists]
  | comment text place => rfl
  | declaration name parameters body place => rfl

end Bindings

/-! ## The table of a program -/

namespace Table

/-- A table that holds the macros of a program. -/
def Declares (table : Table) (program : Program) : Prop :=
  ∀ name, table.get? name = program.declared? name

theorem get?_append_singleton (table : Table) (d : Declaration) (name : String) :
    get? (table ++ [d]) name = (table.get? name).or (if d.name = name then some d else none) := by
  rw [get?, get?, List.find?_append]
  by_cases h : d.name = name
  · simp [h]
  · simp [h]

/-- A table keeps the declarations it has, and takes the first one of each other
name. -/
theorem get?_collectFrom (table : Table) (program : Program) (name : String) :
    (collectFrom table program).1.get? name =
      (table.get? name).or (program.declared? name) := by
  induction program generalizing table with
  | nil => simp [collectFrom, declared?, declarations]
  | cons x program ih =>
      rw [declared?_cons]
      unfold collectFrom
      cases hx : x.declaration? with
      | none => exact ih table
      | some d =>
          dsimp only
          cases ht : table.get? d.name with
          | none =>
              dsimp only
              rw [ih, get?_append_singleton]
              by_cases hd : d.name = name
              · rw [if_pos hd, if_pos hd, ← hd, ht]
                rfl
              · rw [if_neg hd, if_neg hd, Option.or_none]
          | some first =>
              dsimp only
              rw [ih]
              by_cases hd : d.name = name
              · rw [if_pos hd, ← hd, ht]
                rfl
              · rw [if_neg hd]

/-- The table of a program holds its macros. -/
theorem declares_collect (program : Program) : (collect program).1.Declares program :=
  fun name => get?_collectFrom [] program name

end Table

namespace Expansion

variable {program : Program} {table : Table} {settings : Settings}

/-! ## One call -/

/-- A call is expanded if it has a macro to run. -/
theorem resolve_of_target {c : Call} {d : Declaration} (hT : table.Declares program)
    (ht : program.target? c = some d) : resolve table c = .ok d := by
  obtain ⟨hd, hn⟩ := target?_eq_some.mp ht
  rw [resolve, hT, hd]
  exact if_pos hn

/-- A call without a macro to run meets an obstacle. -/
theorem resolve_of_target_none {c : Call} (hT : table.Declares program)
    (ht : program.target? c = none) : ∃ obstacle, resolve table c = .error obstacle := by
  rw [resolve, hT]
  cases hd : program.declared? c.name with
  | none => exact ⟨_, rfl⟩
  | some d =>
      have hn : ¬ c.arguments.length = d.arity := fun hn => by
        have := target?_eq_some.mpr ⟨hd, hn⟩
        rw [ht] at this
        contradiction
      exact ⟨_, if_neg hn⟩

/-- Reporting a call does not count as expanding it, and only a strict run can
stop over it. -/
theorem calls_report (settings : Settings) (c : Call) (origin : Option Location)
    (d : Diagnostic) (s : State) :
    (s.report settings c origin d).1.calls = s.calls ∧
      (settings.strict = false → (s.report settings c origin d).2 = none) := by
  unfold State.report State.enter
  cases c.location with
  | none => cases settings.strict <;> simp
  | some place =>
      dsimp only
      split
      · simp
      · cases settings.strict <;> simp

/-- The call that has a macro to run is counted, and replaced by the body unless
it is one call too many. -/
theorem expandCall_of_target {c : Call} {d : Declaration} (hT : table.Declares program)
    (ht : program.target? c = some d) (number : Nat) (origin : Option Location) (s : State) :
    expandCall settings table number c origin s =
      ({ s with calls := s.calls + 1 },
        if settings.limits.calls < s.calls + 1 then
          .error (.endless number [c.name] (some settings.limits.calls))
        else .ok (program.unfold (.call c))) := by
  unfold expandCall
  rw [resolve_of_target hT ht]
  simp only [unfold, ht, Bindings.item_ofLists]
  split <;> rfl

/-- A call without a macro to run is not counted, and nothing takes its place
unless a strict run stops over it. -/
theorem expandCall_of_target_none {c : Call} (settings : Settings) (hT : table.Declares program)
    (ht : program.target? c = none) (number : Nat) (origin : Option Location) (s : State) :
    ∃ s', s'.calls = s.calls ∧
      (expandCall settings table number c origin s = (s', .ok []) ∨
        settings.strict = true ∧
          ∃ d, expandCall settings table number c origin s = (s', .error d)) := by
  obtain ⟨obstacle, ho⟩ := resolve_of_target_none hT ht
  obtain ⟨hcalls, hstop⟩ := calls_report settings c origin (obstacle.diagnostic table c) s
  unfold expandCall
  rw [ho]
  dsimp only
  cases hr : s.report settings c origin (obstacle.diagnostic table c) with
  | mk s' stop =>
      rw [hr] at hcalls hstop
      cases stop with
      | none => exact ⟨s', hcalls, .inl rfl⟩
      | some d =>
          cases hs : settings.strict with
          | false => exact absurd (hstop hs) (by simp)
          | true => exact ⟨s', hcalls, .inr ⟨rfl, d, rfl⟩⟩

/-! ## One pass -/

/-- What a pass puts in place of a traced item. -/
def Traced.unfold (program : Program) (t : Traced) : List Traced :=
  trace (match t.item with | .call c => t.origin.or c.location | _ => t.origin)
    (program.unfold t.item)

theorem map_item_trace (origin : Option Location) (items : List Item) :
    (trace origin items).map (·.item) = items := by
  rw [trace, List.map_map]
  exact List.map_id items

theorem map_item_flatMap_unfold (ts : List Traced) :
    (ts.flatMap (Traced.unfold program)).map (·.item) =
      (ts.map (·.item)).flatMap program.unfold := by
  induction ts with
  | nil => rfl
  | cons t ts ih =>
      rw [List.flatMap_cons, List.map_append, ih, List.map_cons, List.flatMap_cons]
      rw [Traced.unfold, map_item_trace]

theorem pending_eq_calls (ts : List Traced) : pending ts = calls (ts.map (·.item)) := by
  rw [pending, calls, List.filterMap_map]
  rfl

/-- The calls left after a pass are the next layer. -/
theorem pending_flatMap_unfold (ts : List Traced) :
    pending (ts.flatMap (Traced.unfold program)) = (pending ts).flatMap program.subcalls := by
  rw [pending_eq_calls, pending_eq_calls, map_item_flatMap_unfold, calls_flatMap_unfold]

/-- The ways in which pass `number` can end, with `spent` calls expanded before it:
all items are unfolded, one call too many is met, or a strict run stops over a bad
call. -/
inductive PassEnd (program : Program) (settings : Settings) (number spent : Nat)
    (ts : List Traced) (out : Array Traced) : State × Except Diagnostic (Array Traced) → Prop where
  | done {s : State} {out' : Array Traced} :
      s.calls = spent + ((pending ts).filter program.expands).length →
      s.calls ≤ settings.limits.calls →
      out'.toList = out.toList ++ ts.flatMap (Traced.unfold program) →
      PassEnd program settings number spent ts out (s, .ok out')
  | overspent {s : State} {c : Call} :
      ((pending ts).filter program.expands)[settings.limits.calls - spent]? = some c →
      s.calls = settings.limits.calls + 1 →
      PassEnd program settings number spent ts out
        (s, .error (.endless number [c.name] (some settings.limits.calls)))
  | stopped {s : State} {d : Diagnostic} :
      settings.strict = true → s.calls ≤ settings.limits.calls →
      PassEnd program settings number spent ts out (s, .error d)

theorem pending_cons (t : Traced) (ts : List Traced) :
    pending (t :: ts) = pending [t] ++ pending ts := by
  rw [← List.singleton_append, pending, List.filterMap_append]
  rfl

/-- The end of a pass over the items after `t`, once `t` is unfolded, is an end of
the whole pass. -/
theorem PassEnd.cons {number spent n : Nat} {t : Traced} {ts : List Traced}
    {out out' : Array Traced} {r : State × Except Diagnostic (Array Traced)}
    (hn : ((pending [t]).filter program.expands).length = n)
    (hle : spent + n ≤ settings.limits.calls)
    (hout : out'.toList = out.toList ++ t.unfold program)
    (h : PassEnd program settings number (spent + n) ts out' r) :
    PassEnd program settings number spent (t :: ts) out r := by
  have hp : (pending (t :: ts)).filter program.expands =
      (pending [t]).filter program.expands ++ (pending ts).filter program.expands := by
    rw [pending_cons, List.filter_append]
  cases h with
  | done hcalls hlimit hout' =>
      refine .done ?_ hlimit ?_
      · rw [hcalls, hp, List.length_append, hn, Nat.add_assoc]
      · rw [hout', hout, List.flatMap_cons, List.append_assoc]
  | overspent hc hcalls =>
      refine .overspent ?_ hcalls
      rw [hp, List.getElem?_append_right (by omega), hn, Nat.sub_sub]
      exact hc
  | stopped hstrict hlimit => exact .stopped hstrict hlimit

/-- **A pass**: it unfolds its items until a limit or a strict stop comes in the
way. -/
theorem pass_ends (hT : table.Declares program) (number : Nat) (ts : List Traced)
    (out : Array Traced) (s : State) (hs : s.calls ≤ settings.limits.calls) :
    PassEnd program settings number s.calls ts out (pass settings table number out ts s) := by
  induction ts generalizing out s with
  | nil => exact .done (by simp [pending]) hs (by simp)
  | cons t ts ih =>
      obtain ⟨item, origin⟩ := t
      cases item with
      | instruction i =>
          simp only [pass]
          exact .cons (n := 0) rfl hs (by simp [Traced.unfold, unfold, trace]) (ih _ s hs)
      | comment text place =>
          simp only [pass]
          exact .cons (n := 0) rfl hs (by simp [Traced.unfold, unfold, trace]) (ih _ s hs)
      | declaration name parameters body place =>
          simp only [pass]
          exact .cons (n := 0) rfl hs (by simp [Traced.unfold, unfold, trace]) (ih _ s hs)
      | call c =>
          simp only [pass]
          have hpending : pending [⟨.call c, origin⟩] = [c] := rfl
          cases ht : program.target? c with
          | some d =>
              have hn : ((pending [⟨.call c, origin⟩]).filter program.expands) = [c] := by
                simp [hpending, expands, ht]
              rw [expandCall_of_target hT ht]
              by_cases hlimit : settings.limits.calls < s.calls + 1
              · rw [if_pos hlimit]
                have hz : settings.limits.calls - s.calls = 0 := by omega
                refine .overspent ?_ (show s.calls + 1 = settings.limits.calls + 1 by omega)
                rw [pending_cons, List.filter_append, hn, hz]
                rfl
              · rw [if_neg hlimit]
                have hle := Nat.le_of_not_lt hlimit
                have hrest := ih (out ++ trace (origin.or c.location) (program.unfold (.call c)))
                  { s with calls := s.calls + 1 } hle
                exact .cons (n := 1) (by rw [hn]; rfl) hle (by simp [Traced.unfold]) hrest
          | none =>
              have hn : ((pending [⟨.call c, origin⟩]).filter program.expands) = [] := by
                simp [hpending, expands, ht]
              obtain ⟨s', hcalls, hok | ⟨hstrict, d, hd⟩⟩ :=
                expandCall_of_target_none settings hT ht number origin s
              · rw [hok, ← hcalls]
                refine .cons (n := 0) (by rw [hn]; rfl) (by omega) ?_ (ih _ s' (by omega))
                simp [Traced.unfold, unfold, ht, trace]
              · rw [hd]
                exact .stopped hstrict (by omega)

/-! ## A whole run -/

/-- The ways in which a run can end that goes on with pass `number`, has expanded
`spent` calls before it and may make `more` passes after it: no calls are left, one
call too many is met, calls are left after the last pass, or a strict run stops over
a bad call. -/
inductive RunEnd (program : Program) (settings : Settings) (number spent more : Nat)
    (ts : List Traced) : Run → Prop where
  | finished {s : State} {m : Meaning} :
      Means program .top (ts.map (·.item)) m → m.depth ≤ more + 1 →
      s.calls = spent + m.expanded → s.calls ≤ settings.limits.calls →
      RunEnd program settings number spent more ts
        ⟨number + (m.depth - 1), s, .ok m.instructions⟩
  | overspent {s : State} {k : Nat} {c : Call} :
      k ≤ more → spent + (program.agenda k (pending ts)).length ≤ settings.limits.calls →
      (program.agenda (k + 1) (pending ts))[settings.limits.calls - spent]? = some c →
      s.calls = settings.limits.calls + 1 →
      RunEnd program settings number spent more ts
        ⟨number + k, s,
          .error (.endless (number + k : Nat) [c.name] (some settings.limits.calls))⟩
  | unfinished {s : State} :
      program.layer (more + 1) (pending ts) ≠ [] →
      s.calls = spent + (program.agenda (more + 1) (pending ts)).length →
      s.calls ≤ settings.limits.calls →
      RunEnd program settings number spent more ts
        ⟨number + more, s,
          .error (.endless (number + more : Nat)
            ((program.layer (more + 1) (pending ts)).map (·.name)) none)⟩
  | stopped {s : State} {d : Diagnostic} {k : Nat} :
      settings.strict = true → k ≤ more → s.calls ≤ settings.limits.calls →
      RunEnd program settings number spent more ts ⟨number + k, s, .error d⟩

/-- A run makes no more passes than it may, and counts at most one call too many. -/
theorem RunEnd.within_limits {number spent more : Nat} {ts : List Traced} {r : Run}
    (h : RunEnd program settings number spent more ts r) :
    number ≤ r.passes ∧ r.passes ≤ number + more ∧ r.state.calls ≤ settings.limits.calls + 1 := by
  cases h with
  | finished _ hdepth _ hlimit => dsimp only; omega
  | overspent hk _ _ hcalls => dsimp only; omega
  | unfinished _ _ hlimit => dsimp only; omega
  | stopped _ hk hlimit => dsimp only; omega

/-- The end of a run that goes on after a pass is an end of the run with that
pass: the tree has one more layer at the top. -/
theorem RunEnd.step {number spent more : Nat} {ts : List Traced} {r : Run}
    (hpending : pending (ts.flatMap (Traced.unfold program)) ≠ [])
    (h : RunEnd program settings (number + 1)
      (spent + ((pending ts).filter program.expands).length) more
      (ts.flatMap (Traced.unfold program)) r) :
    RunEnd program settings number spent (more + 1) ts r := by
  cases h with
  | @finished s m' hm' hdepth hcalls hlimit =>
      have hpos : m'.depth ≠ 0 := by
        rw [ne_eq, hm'.depth_eq_zero_iff, ← pending_eq_calls]
        exact hpending
      rw [map_item_flatMap_unfold] at hm'
      obtain ⟨m, hm, hu⟩ := hm'.of_unfold
      have hd := hu.depth
      have hpass : number + 1 + (m'.depth - 1) = number + (m.depth - 1) := by omega
      rw [hpass, hu.instructions]
      refine .finished hm (by omega) ?_ hlimit
      rw [hcalls, hu.expanded, pending_eq_calls, Nat.add_assoc]
  | @overspent s k c hk hle hc hcalls =>
      rw [pending_flatMap_unfold] at hle hc
      rw [Nat.add_right_comm number 1 k]
      refine .overspent (Nat.succ_le_succ hk) ?_ ?_ hcalls
      · rw [agenda, List.length_append, ← Nat.add_assoc]
        exact hle
      · rw [agenda, List.getElem?_append_right (by omega), Nat.sub_sub]
        exact hc
  | unfinished hlayer hcalls hlimit =>
      rw [pending_flatMap_unfold] at hlayer hcalls ⊢
      rw [Nat.add_right_comm number 1 more]
      refine .unfinished hlayer ?_ hlimit
      rw [hcalls, agenda.eq_def program (more + 1 + 1), List.length_append, Nat.add_assoc]
  | @stopped s d k hstrict hk hlimit =>
      rw [Nat.add_right_comm number 1 k]
      exact .stopped hstrict (Nat.succ_le_succ hk) hlimit

/-- A run whose pass leaves no calls ends with the instructions that are left. -/
theorem RunEnd.of_pending_eq_nil {number spent more : Nat} {ts : List Traced} {s : State}
    (hempty : pending (ts.flatMap (Traced.unfold program)) = [])
    (hcalls : s.calls = spent + ((pending ts).filter program.expands).length)
    (hlimit : s.calls ≤ settings.limits.calls) :
    RunEnd program settings number spent more ts
      ⟨number, s, .ok ((ts.flatMap (Traced.unfold program)).filterMap (·.item.instruction?))⟩ := by
  have hitems : (ts.flatMap (Traced.unfold program)).filterMap (·.item.instruction?) =
      instructions ((ts.map (·.item)).flatMap program.unfold) := by
    rw [← map_item_flatMap_unfold, instructions, List.filterMap_map]
    rfl
  rw [pending_eq_calls, map_item_flatMap_unfold] at hempty
  obtain ⟨m, hm, hu⟩ := (Means.of_calls_eq_nil hempty).of_unfold
  have hdepth : m.depth - 1 = 0 := hu.depth.symm
  have hend : RunEnd program settings number spent more ts
      ⟨number + (m.depth - 1), s, .ok m.instructions⟩ := by
    refine .finished hm (by omega) ?_ hlimit
    rw [hcalls, pending_eq_calls, hu.expanded]
    rfl
  rw [hdepth, Nat.add_zero, ← hu.instructions] at hend
  rw [hitems]
  exact hend

/-- **A run**: it works the tree of calls off layer by layer until the tree, a
limit or a strict run's patience comes to an end. -/
theorem passes_ends (hT : table.Declares program) (number : Nat) (ts : List Traced) (s : State)
    (more : Nat) (hs : s.calls ≤ settings.limits.calls) :
    RunEnd program settings number s.calls more ts
      (passes settings table number ts s more) := by
  induction more using Nat.strongRecOn generalizing number ts s with
  | ind more ih =>
      have hend := pass_ends hT number ts #[] s hs
      unfold passes
      generalize pass settings table number #[] ts s = r at hend
      cases hend with
      | @done s' out hcalls hlimit hout =>
          have hout : out.toList = ts.flatMap (Traced.unfold program) := by simpa using hout
          dsimp only
          rw [hout]
          by_cases hempty : pending (ts.flatMap (Traced.unfold program)) = []
          · rw [if_pos (List.isEmpty_iff.mpr hempty)]
            exact .of_pending_eq_nil hempty hcalls hlimit
          · rw [if_neg (fun h => hempty (List.isEmpty_iff.mp h))]
            cases more with
            | zero =>
                dsimp only
                rw [pending_flatMap_unfold] at hempty ⊢
                exact .unfinished hempty (by simpa [agenda] using hcalls) hlimit
            | succ more =>
                dsimp only
                have h := ih more (Nat.lt_succ_self more) (number + 1)
                  (ts.flatMap (Traced.unfold program)) s' hlimit
                rw [hcalls] at h
                exact h.step hempty
      | overspent hc hcalls =>
          refine .overspent (k := 0) (Nat.zero_le more) hs ?_ hcalls
          simpa [agenda] using hc
      | stopped hstrict hlimit => exact .stopped (k := 0) hstrict (Nat.zero_le more) hlimit

end Expansion

end MacroAsm
