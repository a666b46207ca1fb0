import Mathlib.Data.Finset.Card
import Mathlib.Data.Finset.Filter
import Mathlib.Logic.Relation
import MacroAsm.Proofs.Outcome

/-!
# MacroAsm.Proofs.CallGraph

Which programs can be expanded at all is decided by a finite graph.  Its nodes are
the declared names; `f` leads to `g` when the body of `f` calls `g` with as many
arguments as `g` takes.  Arguments play no part: looking them up changes neither
the name of a call nor the number of its arguments.

* `layer_eq_nil_of_not_recurs` — without a cycle within reach, the tree of calls
  ends after one layer for each name and one more for calls that have no macro to
  run;
* `layer_ne_nil_of_recurs` — with a cycle within reach, the tree has no end;
* `expand_terminates_iff_not_recurs` — what that means for an expander.
-/

namespace MacroAsm

open Relation

namespace Program

/-! ## The graph -/

/-- The names that are declared at the top of a program. -/
def declaredNames (program : Program) : Finset String :=
  (program.declarations.map (·.name)).toFinset

/-- The body of `f` calls `g` with as many arguments as `g` takes.  Calls inside
declarations in the body are not calls of `f`. -/
def Uses (program : Program) (f g : String) : Prop :=
  ∃ d, program.declared? f = some d ∧ ∃ c ∈ calls d.body, c.name = g ∧ program.expands c

/-- The program itself calls `f` with as many arguments as `f` takes. -/
def Starts (program : Program) (f : String) : Prop :=
  ∃ c ∈ program.calls, c.name = f ∧ program.expands c

/-- A cycle of the graph is within reach of the program. -/
def Recurs (program : Program) : Prop :=
  ∃ f g, program.Starts f ∧ ReflTransGen program.Uses f g ∧ TransGen program.Uses g g

variable {program : Program}

theorem expands_iff {c : Call} :
    program.expands c ↔
      ∃ d, program.declared? c.name = some d ∧ c.arguments.length = d.parameters.length := by
  rw [expands, Option.isSome_iff_exists]
  exact exists_congr fun d => target?_eq_some

/-- Looking up arguments changes neither the name nor the number of arguments. -/
theorem expands_call (scope : Scope) (c : Call) :
    program.expands (scope.call c) = program.expands c := by
  rw [expands, expands, target?, target?, Scope.name_call, Scope.length_arguments_call]

theorem mem_declaredNames {f : String} {d : Declaration} (h : program.declared? f = some d) :
    f ∈ program.declaredNames := by
  rw [declaredNames, List.mem_toFinset, List.mem_map]
  refine ⟨d, List.mem_of_find?_eq_some h, ?_⟩
  simpa using List.find?_some h

/-! ## Calls of the tree are paths of the graph -/

/-- Only a call with a macro to run has calls under it. -/
theorem expands_of_mem_subcalls {c c' : Call} (h : c' ∈ program.subcalls c) :
    program.expands c := by
  unfold subcalls at h
  cases ht : program.target? c with
  | none => simp [ht] at h
  | some d => simp [expands, ht]

/-- A call under another one is an edge of the graph, if it has a macro to run. -/
theorem uses_of_mem_subcalls {c c' : Call} (h : c' ∈ program.subcalls c)
    (hc' : program.expands c') : program.Uses c.name c'.name := by
  unfold subcalls at h
  cases ht : program.target? c with
  | none => simp [ht] at h
  | some d =>
      simp only [ht, List.mem_map] at h
      obtain ⟨b, hb, rfl⟩ := h
      rw [expands_call] at hc'
      exact ⟨d, (target?_eq_some.mp ht).1, b, hb, rfl, hc'⟩

/-- An edge of the graph is a call under every call of its start that has a macro to
run. -/
theorem exists_mem_subcalls_of_uses {c : Call} {g : String} (hc : program.expands c)
    (h : program.Uses c.name g) :
    ∃ c' ∈ program.subcalls c, c'.name = g ∧ program.expands c' := by
  obtain ⟨d, hd, b, hb, rfl, hexp⟩ := h
  obtain ⟨d', hd', hn⟩ := expands_iff.mp hc
  rw [hd] at hd'
  cases hd'
  have ht : program.target? c = some d := target?_eq_some.mpr ⟨hd, hn⟩
  refine ⟨(Scope.bind d.parameters c.arguments).call b, ?_, rfl, ?_⟩
  · simp only [subcalls, ht]
    exact List.mem_map_of_mem hb
  · rw [expands_call]
    exact hexp

/-- A layer has a call in it only if it has one under one of the given calls. -/
theorem exists_of_layer_ne_nil {k : Nat} {cs : List Call} (h : program.layer k cs ≠ []) :
    ∃ c ∈ cs, program.layer k [c] ≠ [] := by
  induction cs with
  | nil => exact absurd (layer_nil program k) h
  | cons c cs ih =>
      rw [← List.singleton_append, layer_append, ne_eq, List.append_eq_nil_iff, not_and_or] at h
      rcases h with h | h
      · exact ⟨c, List.mem_cons_self, h⟩
      · obtain ⟨c', hc', hk⟩ := ih h
        exact ⟨c', List.mem_cons_of_mem c hc', hk⟩

/-! ## Without a cycle -/

/-- No cycle is within reach of a name. -/
def Safe (program : Program) (f : String) : Prop :=
  ∀ g, ReflTransGen program.Uses f g → ¬ TransGen program.Uses g g

theorem Safe.uses {f g : String} (hf : program.Safe f) (h : program.Uses f g) : program.Safe g :=
  fun _ hg => hf _ (.head h hg)

open Classical in
/-- The declared names within reach of a name, that name included. -/
noncomputable def reach (program : Program) (f : String) : Finset String :=
  program.declaredNames.filter fun g => ReflTransGen program.Uses f g

theorem mem_reach {f g : String} :
    g ∈ program.reach f ↔ g ∈ program.declaredNames ∧ ReflTransGen program.Uses f g := by
  classical exact Finset.mem_filter

theorem mem_reach_self {f : String} {d : Declaration} (h : program.declared? f = some d) :
    f ∈ program.reach f := mem_reach.mpr ⟨mem_declaredNames h, .refl⟩

/-- Every step along an edge leaves the name it comes from behind for good. -/
theorem card_reach_lt {f g : String} (hf : program.Safe f) (h : program.Uses f g) :
    (program.reach g).card < (program.reach f).card := by
  obtain ⟨d, hd, _⟩ := id h
  refine Finset.card_lt_card ((Finset.ssubset_iff_of_subset fun x hx => ?_).mpr
    ⟨f, mem_reach_self hd, fun hback => ?_⟩)
  · obtain ⟨hdeclared, hg⟩ := mem_reach.mp hx
    exact mem_reach.mpr ⟨hdeclared, .head h hg⟩
  · exact hf f .refl (.head' h (mem_reach.mp hback).2)

/-- A call has no more layers under it than names within its reach. -/
theorem le_card_reach_of_layer_ne_nil {k : Nat} {c : Call} (hc : program.Safe c.name)
    (h : program.layer k [c] ≠ []) : k ≤ (program.reach c.name).card := by
  induction k generalizing c with
  | zero => exact Nat.zero_le _
  | succ k ih =>
      rw [layer, List.flatMap_singleton] at h
      obtain ⟨c', hc', hk⟩ := exists_of_layer_ne_nil h
      obtain ⟨d, hd, _⟩ := expands_iff.mp (expands_of_mem_subcalls hc')
      cases hexp : program.expands c' with
      | true =>
          have huses := uses_of_mem_subcalls hc' hexp
          have hle := ih (hc.uses huses) hk
          have hlt := card_reach_lt hc huses
          omega
      | false =>
          -- nothing is under a call without a macro to run, so this is the last layer
          have hzero : k = 0 := by
            cases k with
            | zero => rfl
            | succ k =>
                rw [layer, List.flatMap_singleton] at hk
                obtain ⟨b, hb, _⟩ := exists_of_layer_ne_nil hk
                rw [expands_of_mem_subcalls hb] at hexp
                contradiction
          have hpos := Finset.card_pos.mpr ⟨c.name, mem_reach_self hd⟩
          omega

/-- **Without a cycle the tree ends**, after a layer for each declared name and one
more. -/
theorem layer_eq_nil_of_not_recurs (h : ¬ program.Recurs) {k : Nat}
    (hk : program.declaredNames.card < k) : program.layer k program.calls = [] := by
  by_contra hne
  obtain ⟨c, hc, hlayer⟩ := exists_of_layer_ne_nil hne
  obtain ⟨k, rfl⟩ := Nat.exists_eq_succ_of_ne_zero (Nat.ne_zero_of_lt hk)
  have hsub := hlayer
  rw [layer, List.flatMap_singleton] at hsub
  obtain ⟨c', hc', _⟩ := exists_of_layer_ne_nil hsub
  have hsafe : program.Safe c.name := fun g hg hcycle =>
    h ⟨c.name, g, ⟨c, hc, rfl, expands_of_mem_subcalls hc'⟩, hg, hcycle⟩
  have hle := le_card_reach_of_layer_ne_nil hsafe hlayer
  have hcard : (program.reach c.name).card ≤ program.declaredNames.card :=
    Finset.card_le_card fun g hg => (mem_reach.mp hg).1
  omega

/-! ## With a cycle -/

/-- From a name with a cycle within reach an edge leads to another such name. -/
theorem exists_uses_of_cycle {f g : String} (hfg : ReflTransGen program.Uses f g)
    (hg : TransGen program.Uses g g) :
    ∃ f', program.Uses f f' ∧ ReflTransGen program.Uses f' g := by
  rcases hfg.cases_head with rfl | ⟨f', hf', hg'⟩
  · obtain ⟨f', hf', hback⟩ := TransGen.head'_iff.mp hg
    exact ⟨f', hf', hback⟩
  · exact ⟨f', hf', hg'⟩

/-- **With a cycle the tree has no end**: every layer has a call from which the cycle
is within reach. -/
theorem layer_ne_nil_of_recurs (h : program.Recurs) (k : Nat) :
    program.layer k program.calls ≠ [] := by
  obtain ⟨f, g, ⟨c, hc, rfl, hexp⟩, hfg, hg⟩ := h
  have hcall : ∃ b ∈ program.layer k program.calls,
      program.expands b ∧ ReflTransGen program.Uses b.name g := by
    induction k with
    | zero => exact ⟨c, hc, hexp, hfg⟩
    | succ k ih =>
        obtain ⟨b, hb, hbexp, hbg⟩ := ih
        obtain ⟨f', huses, hf'⟩ := exists_uses_of_cycle hbg hg
        obtain ⟨b', hb', rfl, hbexp'⟩ := exists_mem_subcalls_of_uses hbexp huses
        rw [layer_succ]
        exact ⟨b', List.mem_flatMap.mpr ⟨b, hb, hb'⟩, hbexp', hf'⟩
  obtain ⟨b, hb, _⟩ := hcall
  exact List.ne_nil_of_mem hb

/-! ## Two programs -/

/-- The only edge of `chain`. -/
theorem uses_chain {f g : String} (h : chain.Uses f g) : f = "F" ∧ g = "G" := by
  obtain ⟨d, hd, c, hc, rfl, _⟩ := h
  rw [chain, declared?_cons, declared?_cons] at hd
  simp only [Item.declaration?] at hd
  split at hd
  · cases hd
    simp at hc
  · split at hd
    · rename_i hf
      cases hd
      simp only [calls_cons_call, calls_cons_instruction, calls_nil, List.mem_singleton] at hc
      exact ⟨hf.symm, by rw [hc]⟩
    · cases hd

theorem not_recurs_chain : ¬ chain.Recurs := by
  rintro ⟨_, g, _, _, hg⟩
  obtain ⟨h, hstart, _⟩ := Relation.TransGen.head'_iff.mp hg
  obtain ⟨h', _, hend⟩ := Relation.TransGen.tail'_iff.mp hg
  have hF := (uses_chain hstart).1
  rw [(uses_chain hend).2] at hF
  exact absurd hF (by decide)

theorem recurs_doubling : doubling.Recurs := by
  have huses : doubling.Uses "F" "F" :=
    ⟨_, rfl, { name := "F" }, List.mem_cons_self, rfl, rfl⟩
  exact ⟨"F", "F", ⟨{ name := "F" }, List.mem_singleton.mpr rfl, rfl, rfl⟩, .refl, .single huses⟩

end Program

open Program

/-! ## Expanding -/

/-- The same expander with other limits. -/
def Expander.withLimits (e : Expander) (limits : Limits) : Expander :=
  { e with settings := { e.settings with limits := limits } }

/-- **The call graph decides**: if no cycle is within reach of the program, a lenient
expander that may make one pass more than there are declared names never gives up for
want of passes, and it returns if it may expand enough calls; if a cycle is within
reach, it gives up whatever its limits are. -/
theorem expand_terminates_iff_not_recurs (e : Expander) (program : Program)
    (h : e.settings.strict = false) :
    (¬ program.Recurs →
      (∀ limits : Limits, program.declaredNames.card + 1 ≤ limits.passes →
        ∀ d, ((e.withLimits limits).expand program).outcome = .error d →
          ∀ passes pending, d.cause ≠ .endless passes pending none) ∧
      ∃ enough, ∀ limits : Limits, program.declaredNames.card + 1 ≤ limits.passes →
        enough ≤ limits.calls → ∃ is, ((e.withLimits limits).expand program).outcome = .ok is) ∧
    (program.Recurs → ∀ limits : Limits, ∃ d passes pending bound,
      ((e.withLimits limits).expand program).outcome = .error d ∧
        d.cause = .endless passes pending bound) := by
  constructor
  · intro hrecurs
    have hlayer : ∀ k, program.declaredNames.card + 1 ≤ k → program.layer k program.calls = [] :=
      fun k hk => layer_eq_nil_of_not_recurs hrecurs hk
    constructor
    · intro limits hlimits d herror passes pending hcause
      have hlenient : (e.withLimits limits).settings.strict = false := h
      rcases expand_eq_error_cases hlenient herror with
        ⟨k, c, _, _, _, rfl, _, _⟩ | ⟨_, hne, _⟩
      · simp [Diagnostic.endless] at hcause
      · exact hne (hlayer _ hlimits)
    · obtain ⟨m, hm⟩ := Means.exists_of_layer_eq_nil (hlayer _ le_rfl)
      refine ⟨m.expanded, fun limits hlimits hcalls => ⟨m.instructions, ?_⟩⟩
      have hdepth : m.depth ≤ limits.passes := (hm.layer_eq_nil_iff _).mp (hlayer _ hlimits)
      exact (expand_of_means (e := e.withLimits limits) h hm hdepth hcalls).1
  · intro hrecurs limits
    cases hout : ((e.withLimits limits).expand program).outcome with
    | ok is =>
        obtain ⟨m, hm, _⟩ := means_of_expand_eq_ok hout
        have hnil := (hm.layer_eq_nil_iff m.depth).mpr le_rfl
        exact absurd hnil (layer_ne_nil_of_recurs hrecurs m.depth)
    | error d =>
        rcases expand_eq_error_cases (e := e.withLimits limits) h hout with
          ⟨k, c, _, _, _, rfl, _, _⟩ | ⟨_, _, rfl⟩
        · exact ⟨_, _, _, _, rfl, rfl⟩
        · exact ⟨_, _, _, _, rfl, rfl⟩

/-- `chain` has no cycle within reach and `doubling` has one. -/
theorem expand_chain_terminates :
    (¬ chain.Recurs ∧ ∃ enough, ∀ limits : Limits, 3 ≤ limits.passes → enough ≤ limits.calls →
      ∃ is, ((({} : Expander).withLimits limits).expand chain).outcome = .ok is) ∧
    doubling.Recurs ∧ ∀ limits : Limits, ∃ d passes pending bound,
      ((({} : Expander).withLimits limits).expand doubling).outcome = .error d ∧
        d.cause = .endless passes pending bound := by
  refine ⟨⟨not_recurs_chain, ?_⟩, recurs_doubling, ?_⟩
  · exact ((expand_terminates_iff_not_recurs {} chain rfl).1 not_recurs_chain).2
  · exact (expand_terminates_iff_not_recurs {} doubling rfl).2 recurs_doubling

end MacroAsm
