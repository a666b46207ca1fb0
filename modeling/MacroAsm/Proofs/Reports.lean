import MacroAsm.Proofs.Conversion

/-!
# MacroAsm.Proofs.Reports

Which bad calls a lenient run reports, and in which order.  A bad call is met once for
every way that leads to it in the tree of calls, but it is reported once for every call
of the program itself that it comes from.

* `filterMap_site_unseen` — of the bad calls that a run meets (`trail`), those that have not
  been seen before (`unseen`) are the first ones at their sites;
* `pass_entered`, `passes_entered` — a pass enters the bad calls of its items, and a run
  those of all layers, as far as they have not been seen before;
* `expand_entered` — what an expander enters.
-/

namespace MacroAsm

open Program

namespace Expansion

/-! ## Calls on their way through the passes -/

/-- A call that a run meets, and the place of the top-level call that it came from. -/
structure Notice where
  call : Call
  origin : Option Location

namespace Notice

/-- What a run remembers of a bad call that it has reported. -/
def sighting? (n : Notice) : Option Sighting :=
  n.call.location.map fun place => ⟨n.call.name, place, n.origin⟩

/-- Where a call was written, and the top-level call that it came from. -/
def site? (n : Notice) : Option (Location × Option Location) :=
  n.call.location.map fun place => (place, n.origin)

/-- The calls directly under a call.  They come from the same top-level call, which is the
call itself if it came from none. -/
def under (program : Program) (n : Notice) : List Notice :=
  (program.subcalls n.call).map fun c => ⟨c, n.origin.or n.call.location⟩

/-- The warning of a bad call. -/
def warning (table : Table) (n : Notice) : Diagnostic :=
  let d :=
    match table.get? n.call.name with
    | none => Obstacle.undeclared.diagnostic table n.call
    | some d => (Obstacle.arity d).diagnostic table n.call
  { withOrigin n.origin d with severity := .warning }

end Notice

/-- The calls among traced items. -/
def notices (ts : List Traced) : List Notice :=
  ts.filterMap fun t => t.item.call?.map fun c => ⟨c, t.origin⟩

/-- The calls that have no macro to run. -/
def bad (program : Program) (ns : List Notice) : List Notice :=
  ns.filter fun n => !program.expands n.call

/-- The calls with `k` calls above them, up to and including one of the given calls. -/
def noticeLayer (program : Program) : Nat → List Notice → List Notice
  | 0, ns => ns
  | k + 1, ns => noticeLayer program k (ns.flatMap (Notice.under program))

/-- The bad calls in the first `k` layers, layer by layer. -/
def trail (program : Program) (k : Nat) (ns : List Notice) : List Notice :=
  (List.range k).flatMap fun j => bad program (noticeLayer program j ns)

section

variable {program : Program}

theorem notices_cons (t : Traced) (ts : List Traced) :
    notices (t :: ts) = notices [t] ++ notices ts := by
  rw [← List.singleton_append, notices, List.filterMap_append]
  rfl

theorem notices_append (ts us : List Traced) : notices (ts ++ us) = notices ts ++ notices us :=
  List.filterMap_append

theorem notices_trace (origin : Option Location) (items : List Item) :
    notices (trace origin items) = (calls items).map fun c => ⟨c, origin⟩ := by
  rw [notices, trace, List.filterMap_map, calls, List.map_filterMap]
  rfl

theorem pending_eq_map_notices (ts : List Traced) : pending ts = (notices ts).map (·.call) := by
  rw [notices, List.map_filterMap, pending]
  congr 1
  funext t
  cases t.item.call? <;> rfl

/-- The calls that a pass leaves are those directly under the calls it has met. -/
theorem notices_flatMap_unfold (ts : List Traced) :
    notices (ts.flatMap (Traced.unfold program)) = (notices ts).flatMap (Notice.under program) := by
  induction ts with
  | nil => rfl
  | cons t ts ih =>
      rw [List.flatMap_cons, notices_append, ih, notices_cons t ts, List.flatMap_append]
      congr 1
      obtain ⟨item, origin⟩ := t
      rw [Traced.unfold, notices_trace]
      cases item with
      | call c =>
          have hcalls : calls (program.unfold (.call c)) = program.subcalls c := by
            have h := calls_flatMap_unfold program [.call c]
            simpa using h
          rw [hcalls]
          simp [notices, Item.call?, Notice.under]
      | instruction i => simp [notices, Item.call?, Program.unfold]
      | comment text place => simp [notices, Item.call?, Program.unfold]
      | declaration name parameters body place => simp [notices, Item.call?, Program.unfold]

@[simp] theorem noticeLayer_nil (k : Nat) : noticeLayer program k [] = [] := by
  induction k with
  | zero => rfl
  | succ k ih => exact ih

theorem noticeLayer_append (k : Nat) (ns ms : List Notice) :
    noticeLayer program k (ns ++ ms) = noticeLayer program k ns ++ noticeLayer program k ms := by
  induction k generalizing ns ms with
  | zero => rfl
  | succ k ih => simp only [noticeLayer, List.flatMap_append, ih]

theorem trail_succ (k : Nat) (ns : List Notice) :
    trail program (k + 1) ns =
      bad program ns ++ trail program k (ns.flatMap (Notice.under program)) := by
  rw [trail, List.range_succ_eq_map, List.flatMap_cons, List.flatMap_map]
  rfl

@[simp] theorem trail_nil (k : Nat) : trail program k [] = [] := by
  simp [trail, bad]

end

/-! ## What has not been seen before -/

/-- The sightings after a call has been met. -/
def look (seen : List Sighting) (n : Notice) : List Sighting :=
  match n.sighting? with
  | none => seen
  | some s => if s ∈ seen then seen else s :: seen

/-- The notices that are entered when some sightings have been made before.  A call without
a place is always entered. -/
def unseen : List Sighting → List Notice → List Notice
  | _, [] => []
  | seen, n :: ns =>
    if ∃ s ∈ n.sighting?, s ∈ seen then unseen seen ns else n :: unseen (look seen n) ns

theorem unseen_append (seen : List Sighting) (ns ms : List Notice) :
    unseen seen (ns ++ ms) = unseen seen ns ++ unseen (ns.foldl look seen) ms := by
  induction ns generalizing seen with
  | nil => rfl
  | cons n ns ih =>
      rw [List.cons_append, unseen, unseen, List.foldl_cons]
      by_cases h : ∃ s ∈ n.sighting?, s ∈ seen
      · have hlook : look seen n = seen := by
          obtain ⟨s, hs, hseen⟩ := h
          simp [look, Option.mem_def.mp hs, hseen]
        rw [if_pos h, if_pos h, ih, hlook]
      · rw [if_neg h, if_neg h, ih, List.cons_append]

/-- Only which sightings have been made counts. -/
theorem unseen_congr {seen seen' : List Sighting} (h : ∀ s, s ∈ seen ↔ s ∈ seen')
    (ns : List Notice) : unseen seen ns = unseen seen' ns := by
  induction ns generalizing seen seen' with
  | nil => rfl
  | cons n ns ih =>
      have hlook : ∀ s, s ∈ look seen n ↔ s ∈ look seen' n := by
        intro s
        unfold look
        cases n.sighting? with
        | none => exact h s
        | some t =>
            simp only [h t]
            split
            · exact h s
            · simp [h s]
      simp only [unseen, h, ih h, ih hlook]

/-- A sighting takes its own kind out of what comes after. -/
theorem unseen_cons (s : Sighting) (seen : List Sighting) (ns : List Notice) :
    unseen (s :: seen) ns = unseen seen (ns.filter fun n => n.sighting? ≠ some s) := by
  induction ns generalizing seen with
  | nil => rfl
  | cons n ns ih =>
      cases hn : n.sighting? with
      | none =>
          rw [List.filter_cons_of_pos (by simp [hn]), unseen, unseen]
          simp [hn, look, ih]
      | some t =>
          by_cases ht : t = s
          · rw [List.filter_cons_of_neg (by simp [hn, ht]), unseen]
            simp [hn, ht, ih]
          · rw [List.filter_cons_of_pos (by simp [hn, ht]), unseen, unseen]
            by_cases hseen : t ∈ seen
            · simp [hn, hseen, ih]
            · have hswap : unseen (t :: s :: seen) ns = unseen (s :: t :: seen) ns :=
                unseen_congr (fun u => by simp [or_left_comm]) ns
              simp [hn, ht, hseen, look, hswap, ih]

/-- Where calls at one place have one name, dropping what has the sighting of a call drops
what has its site. -/
theorem filterMap_site_filter {n : Notice} {place : Location} {ns : List Notice}
    (hplace : n.call.location = some place)
    (h : ∀ m ∈ ns, n.call.location = m.call.location → n.call.name = m.call.name) :
    (ns.filter fun m => m.sighting? ≠ some ⟨n.call.name, place, n.origin⟩).filterMap Notice.site? =
      (ns.filterMap Notice.site?).filter fun site => !site == (place, n.origin) := by
  rw [List.filterMap_filter, List.filter_filterMap]
  refine List.filterMap_congr fun m hm => ?_
  have hname := h m hm
  rw [hplace] at hname
  cases hm' : m.call.location with
  | none => simp [Notice.site?, Notice.sighting?, hm']
  | some place' =>
      rw [hm'] at hname
      simp only [Notice.site?, Notice.sighting?, hm', Option.map_some, Option.filter_some]
      by_cases hsite : (place', m.origin) = (place, n.origin)
      · obtain ⟨rfl, horigin⟩ := Prod.mk.inj hsite
        simp [horigin, hname rfl]
      · have hsighting : (⟨m.call.name, place', m.origin⟩ : Sighting) ≠
            ⟨n.call.name, place, n.origin⟩ := by
          intro heq
          obtain ⟨_, hplaces, horigins⟩ := Sighting.mk.inj heq
          exact hsite (by rw [hplaces, horigins])
        simp [hsite, hsighting]

/-- **First occurrences are entered**: where calls at one place have one name, what is
entered is what is left when repeated sites are dropped. -/
theorem filterMap_site_unseen (ns : List Notice)
    (h : ∀ n ∈ ns, ∀ m ∈ ns, n.call.location = m.call.location → n.call.name = m.call.name) :
    (unseen [] ns).filterMap Notice.site? = (ns.filterMap Notice.site?).eraseDups := by
  match ns with
  | [] => rfl
  | n :: ns =>
      have hns : ∀ m ∈ ns, ∀ k ∈ ns, m.call.location = k.call.location →
          m.call.name = k.call.name := fun m hm k hk =>
        h m (List.mem_cons_of_mem n hm) k (List.mem_cons_of_mem n hk)
      rw [unseen, if_neg (by simp)]
      cases hplace : n.call.location with
      | none =>
          have hlook : look [] n = [] := by simp [look, Notice.sighting?, hplace]
          have hsite : n.site? = none := by simp [Notice.site?, hplace]
          rw [hlook, List.filterMap_cons_none hsite, List.filterMap_cons_none hsite]
          exact filterMap_site_unseen ns hns
      | some place =>
          have hlook : look [] n = [⟨n.call.name, place, n.origin⟩] := by
            simp [look, Notice.sighting?, hplace]
          have hsite : n.site? = some (place, n.origin) := by simp [Notice.site?, hplace]
          have hrest := filterMap_site_unseen
            (ns.filter fun m => m.sighting? ≠ some ⟨n.call.name, place, n.origin⟩)
            fun m hm k hk => hns m (List.mem_of_mem_filter hm) k (List.mem_of_mem_filter hk)
          have hdrop := filterMap_site_filter hplace fun m hm =>
            h n List.mem_cons_self m (List.mem_cons_of_mem n hm)
          rw [hlook, unseen_cons, List.filterMap_cons_some hsite, List.filterMap_cons_some hsite,
            List.eraseDups_cons, hrest, hdrop]
termination_by ns.length
decreasing_by
  · exact Nat.lt_succ_self _
  · exact Nat.lt_succ_of_le (List.length_filter_le _ _)

/-! ## What a run enters -/

variable {program : Program} {table : Table} {settings : Settings}

/-- From one state to another, the warnings of some bad calls were entered, as far as these
had not been seen, and nothing else. -/
structure Entered (table : Table) (s : State) (ns : List Notice) (s' : State) : Prop where
  errors : s'.ledger.errors = s.ledger.errors
  warnings : s'.ledger.warnings.toList =
    s.ledger.warnings.toList ++ (unseen s.sightings ns).map (Notice.warning table)
  sightings : s'.sightings = ns.foldl look s.sightings

theorem Entered.refl (table : Table) (s : State) : Entered table s [] s where
  errors := rfl
  warnings := by simp [unseen]
  sightings := rfl

theorem Entered.trans {s s' s'' : State} {ns ms : List Notice} (h : Entered table s ns s')
    (h' : Entered table s' ms s'') : Entered table s (ns ++ ms) s'' where
  errors := h'.errors.trans h.errors
  warnings := by
    rw [h'.warnings, h.warnings, h.sightings, unseen_append, List.map_append, List.append_assoc]
  sightings := by rw [h'.sightings, h.sightings, List.foldl_append]

/-- A remark only adds to the hint. -/
theorem withOrigin_fields (origin : Option Location) (d : Diagnostic) :
    (withOrigin origin d).cause = d.cause ∧ (withOrigin origin d).location = d.location ∧
      (withOrigin origin d).severity = d.severity := by
  unfold withOrigin Diagnostic.remark
  cases origin with
  | none => simp
  | some place => cases d.hint <;> simp

/-- The obstacle in the way of a call decides the warning. -/
theorem warning_of_resolve {c : Call} {obstacle : Obstacle} (h : resolve table c = .error obstacle)
    (origin : Option Location) :
    Notice.warning table ⟨c, origin⟩ =
      { withOrigin origin (obstacle.diagnostic table c) with severity := .warning } := by
  unfold resolve at h
  unfold Notice.warning
  cases hget : table.get? c.name with
  | none =>
      rw [hget] at h
      cases h
      rfl
  | some d =>
      rw [hget] at h
      dsimp only at h
      split at h
      · cases h
      · cases h
        rfl

/-- A lenient run enters the warning of a bad call. -/
theorem entered_report (hlenient : settings.strict = false) {c : Call} {obstacle : Obstacle}
    (h : resolve table c = .error obstacle) (origin : Option Location) (s : State) :
    Entered table s [⟨c, origin⟩] (s.report settings c origin (obstacle.diagnostic table c)).1 := by
  have hwarning := warning_of_resolve h origin
  unfold State.report State.enter
  rw [hlenient]
  cases hplace : c.location with
  | none =>
      have hsighting : (⟨c, origin⟩ : Notice).sighting? = none := by
        simp [Notice.sighting?, hplace]
      constructor
      · rfl
      · simp [Ledger.addWarning, unseen, hsighting, hwarning]
      · simp [look, hsighting]
  | some place =>
      have hsighting : (⟨c, origin⟩ : Notice).sighting? = some ⟨c.name, place, origin⟩ := by
        simp [Notice.sighting?, hplace]
      by_cases hseen : (⟨c.name, place, origin⟩ : Sighting) ∈ s.sightings
      · have hcontains : s.sightings.contains ⟨c.name, place, origin⟩ = true := by simpa using hseen
        simp only [hcontains, if_true]
        constructor
        · rfl
        · simp [unseen, hsighting, hseen]
        · simp [look, hsighting, hseen]
      · have hcontains : s.sightings.contains ⟨c.name, place, origin⟩ = false := by
          simpa using hseen
        simp only [hcontains]
        constructor
        · rfl
        · simp [Ledger.addWarning, unseen, hsighting, hseen, hwarning]
        · simp [look, hsighting, hseen]

/-- One call of a lenient pass: if it is bad, it is entered. -/
theorem expandCall_entered (hT : table.Declares program) (hlenient : settings.strict = false)
    (number : Nat) (c : Call) (origin : Option Location) (s : State) :
    Entered table s (bad program [⟨c, origin⟩])
      (expandCall settings table number c origin s).1 := by
  cases ht : program.target? c with
  | some d =>
      have hbad : bad program [⟨c, origin⟩] = [] := by simp [bad, expands, ht]
      rw [hbad, expandCall_of_target hT ht]
      exact ⟨rfl, by simp [unseen], rfl⟩
  | none =>
      have hbad : bad program [⟨c, origin⟩] = [⟨c, origin⟩] := by simp [bad, expands, ht]
      obtain ⟨obstacle, hobstacle⟩ := resolve_of_target_none hT ht
      have hentered := entered_report hlenient hobstacle origin s
      rw [hbad, expandCall, hobstacle]
      dsimp only
      generalize s.report settings c origin (obstacle.diagnostic table c) = r at hentered ⊢
      obtain ⟨s', stop⟩ := r
      cases stop <;> exact hentered

/-- **A lenient pass enters bad calls**: if it comes to its end, those of its items, from left
to right. -/
theorem pass_entered (hT : table.Declares program) (hlenient : settings.strict = false)
    (number : Nat) (ts : List Traced) (out : Array Traced) (s : State) :
    ∃ ns, Entered table s ns (Expansion.pass settings table number out ts s).1 ∧
      ∀ out', (Expansion.pass settings table number out ts s).2 = .ok out' →
        ns = bad program (notices ts) := by
  induction ts generalizing out s with
  | nil => exact ⟨[], .refl table s, fun _ _ => rfl⟩
  | cons t ts ih =>
      obtain ⟨item, origin⟩ := t
      rw [notices_cons, bad, List.filter_append]
      cases item with
      | call c =>
          rw [Expansion.pass]
          have hcall := expandCall_entered hT hlenient number c origin s
          generalize expandCall settings table number c origin s = r at hcall
          obtain ⟨s', outcome⟩ := r
          cases outcome with
          | error d => exact ⟨_, hcall, fun _ h => by cases h⟩
          | ok items =>
              obtain ⟨ns, hns, hall⟩ := ih (out ++ trace (origin.or c.location) items) s'
              refine ⟨_, hcall.trans hns, fun out' h => ?_⟩
              rw [hall out' h]
              rfl
      | _ => exact ih _ s

/-- **A lenient run enters bad calls**: if it returns, those of all layers, layer by layer. -/
theorem passes_entered (hT : table.Declares program) (hlenient : settings.strict = false)
    (number : Nat) (ts : List Traced) (s : State) (more : Nat)
    (hs : s.calls ≤ settings.limits.calls) :
    ∃ ns, Entered table s ns (passes settings table number ts s more).state ∧
      ∀ is, (passes settings table number ts s more).outcome = .ok is →
        ns = trail program (more + 1) (notices ts) := by
  induction more using Nat.strongRecOn generalizing number ts s with
  | ind more ih =>
      have hend := pass_ends hT number ts #[] s hs
      obtain ⟨ns, hentered, hall⟩ := pass_entered hT hlenient number ts #[] s
      unfold passes
      generalize Expansion.pass settings table number #[] ts s = r at hend hentered hall
      cases hend with
      | overspent _ _ => exact ⟨ns, hentered, fun _ h => by cases h⟩
      | stopped _ _ => exact ⟨ns, hentered, fun _ h => by cases h⟩
      | @done s' out hcalls hlimit hout =>
          obtain rfl := hall out rfl
          have hout : out.toList = ts.flatMap (Traced.unfold program) := by simpa using hout
          rw [trail_succ, ← notices_flatMap_unfold]
          dsimp only at hentered ⊢
          rw [hout]
          by_cases hempty : pending (ts.flatMap (Traced.unfold program)) = []
          · rw [if_pos (List.isEmpty_iff.mpr hempty)]
            rw [pending_eq_map_notices, List.map_eq_nil_iff] at hempty
            rw [hempty, trail_nil, List.append_nil]
            exact ⟨_, hentered, fun _ _ => rfl⟩
          · rw [if_neg (fun h => hempty (List.isEmpty_iff.mp h))]
            cases more with
            | zero => exact ⟨_, hentered, fun _ h => by cases h⟩
            | succ more =>
                obtain ⟨ms, hms, hrest⟩ := ih more (Nat.lt_succ_self more) (number + 1)
                  (ts.flatMap (Traced.unfold program)) s' hlimit
                exact ⟨_, hentered.trans hms, fun is h => by rw [hrest is h]⟩

end Expansion

/-! ## What an expander enters -/

open Expansion

theorem Ledger.foldl_addWarning {α : Type} (ledger : Ledger α) (entries : List α) :
    entries.foldl addWarning ledger = { ledger with warnings := ledger.warnings ++ entries } := by
  induction entries generalizing ledger with
  | nil => simp
  | cons entry entries ih => simp [ih, addWarning]

/-- The warnings of a program's declarations are warnings of repeated names. -/
theorem Table.cause_of_mem_collectFrom {table : Table} {program : Program} {d : Diagnostic}
    (h : d ∈ (collectFrom table program).2) : ∃ name first, d.cause = .duplicate name first := by
  induction program generalizing table with
  | nil => cases h
  | cons x program ih =>
      unfold collectFrom at h
      cases hx : x.declaration? with
      | none =>
          rw [hx] at h
          exact ih h
      | some declared =>
          rw [hx] at h
          dsimp only at h
          cases hfirst : table.get? declared.name with
          | none =>
              rw [hfirst] at h
              exact ih h
          | some first =>
              rw [hfirst] at h
              rcases List.mem_cons.mp h with rfl | h
              · exact ⟨_, _, rfl⟩
              · exact ih h

/-- **What a lenient expander that returns enters**: the repeated declarations, then the bad
calls of all layers. -/
theorem expand_entered {e : Expander} {program : Program} {is : List Instruction}
    (hlenient : e.settings.strict = false) (h : (e.expand program).outcome = .ok is) :
    (e.expand program).expander.ledger.errors = e.ledger.errors ∧
      (e.expand program).expander.ledger.warnings.toList =
        e.ledger.warnings.toList ++ (Table.collect program).2 ++
          (unseen [] (trail program e.settings.limits.passes (notices (trace none program)))).map
            (Notice.warning (Table.collect program).1) := by
  obtain ⟨ns, hentered, hall⟩ :=
    passes_entered (Table.declares_collect program) hlenient 1 (trace none program)
      { ledger := (Table.collect program).2.foldl Ledger.addWarning e.ledger }
      (e.settings.limits.passes - 1) (Nat.zero_le _)
  rw [hall is h, Nat.sub_add_cancel e.settings.limits.passes_pos] at hentered
  constructor
  · exact hentered.errors.trans (by rw [Ledger.foldl_addWarning])
  · exact hentered.warnings.trans (by simp [Ledger.foldl_addWarning])

end MacroAsm
