import MacroAsm.Proofs.Unplaced

/-!
# MacroAsm.Proofs.ReachedMacros

Of all that a program declares, only the macros that its calls reach have an influence on what
it is expanded to.  The calls that are reached (`Program.Reached`) are closed under unfolding, so
every call of every pass is one of them; two programs with the same instructions and calls whose
declarations agree on the names of these calls are expanded in step.

* `Program.Reached.of_body` — a pass puts reached calls in place of reached calls;
* `expand_congr_of_reached` — programs that agree on reached calls are expanded alike;
* `only_reached_macros_matter` — so declarations may be moved, repeated, added and removed.

Items are compared by what a map `m` leaves of their places, so that programs that are equal and
programs that are the same up to places are dealt with at once.
-/

namespace MacroAsm

open Program Expansion
open List (Forall₂)

/-! ## Calls that are reached -/

/-- A call of the program, or one in the body that a reached call runs. -/
inductive Program.Reached (program : Program) : Call → Prop where
  | top {c : Call} : c ∈ program.calls → Reached program c
  | under {c c' : Call} : Reached program c → c' ∈ program.subcalls c → Reached program c'

/-- The calls in what takes the place of a reached call are reached. -/
theorem Program.Reached.of_body {program : Program} {c : Call} {d : Declaration}
    (h : program.Reached c) (ht : program.target? c = some d) :
    ∀ c' ∈ calls (d.body.map (Bindings.ofLists d.parameters c.arguments).item),
      program.Reached c' := by
  intro c' hc'
  rw [Bindings.item_ofLists, calls_map_item] at hc'
  refine h.under ?_
  rw [subcalls, ht]
  exact hc'

/-! ## Programs with the same code -/

namespace Program

/-- The instructions and calls of a program, in order. -/
def code (program : Program) : Program := program.filter Item.isCode

theorem code_append (xs ys : Program) : code (xs ++ ys) = code xs ++ code ys :=
  List.filter_append xs ys

theorem code_cons_of_not_isCode {x : Item} (hx : x.isCode = false) (xs : Program) :
    code (x :: xs) = code xs :=
  List.filter_cons_of_neg (by rw [hx]; decide)

theorem calls_code (program : Program) : calls program.code = program.calls := by
  rw [calls, calls, code, List.filterMap_filter]
  refine List.filterMap_congr fun x _ => ?_
  cases hx : x.isCode with
  | true => rfl
  | false => rw [Item.call?_of_not_isCode hx]; rfl

theorem declared?_append (xs ys : Program) (name : String) :
    declared? (xs ++ ys) name = (xs.declared? name).or (ys.declared? name) := by
  simp [declared?, declarations, List.find?_append]

theorem declared?_cons_comment (text : String) (place : Option Location) (xs : Program)
    (name : String) : declared? (.comment text place :: xs) name = xs.declared? name :=
  declared?_cons (.comment text place) xs name

theorem declared?_cons_item (d : Declaration) (xs : Program) (name : String) :
    declared? (d.item :: xs) name = if d.name = name then some d else xs.declared? name :=
  declared?_cons d.item xs name

end Program

/-! ## Declarations that agree -/

theorem Expansion.resolve_of_undeclared {table : Table} {p : Program} {c : Call}
    (hp : table.Declares p) (h : p.declared? c.name = none) :
    resolve table c = .error .undeclared := by
  rw [resolve, hp, h]

theorem Expansion.resolve_of_declared {table : Table} {p : Program} {c : Call} {d : Declaration}
    (hp : table.Declares p) (h : p.declared? c.name = some d) :
    resolve table c =
      if c.arguments.length = d.arity then .ok d else .error (.arity d) := by
  rw [resolve, hp, h]

section

variable {m : Option Location → Option Location} {p q : Program}

/-- Two declarations that run the same, as far as `m` tells places apart.  Where they were made
is of no account. -/
def Declaration.AlikeUpTo (m : Option Location → Option Location) (d d' : Declaration) : Prop :=
  d'.parameters = d.parameters ∧ d'.body.map (Item.mapPlace m) = d.body.map (Item.mapPlace m)

/-- The bond of two runs over reached calls.  The runs may report different things. -/
def reachBond (m : Option Location → Option Location) (p : Program) : Bond where
  states s s' := s'.calls = s.calls
  instructions i j := j.mapPlace m = i.mapPlace m
  calls c _ c' _ := c'.mapPlace m = c.mapPlace m ∧ p.Reached c

theorem matched_of_mapPlace_eq {x x' : Item} (h : x'.mapPlace m = x.mapPlace m)
    (hreached : ∀ c ∈ calls [x], p.Reached c) (origin origin' : Option Location) :
    (reachBond m p).Matched ⟨x, origin⟩ ⟨x', origin'⟩ := by
  cases x with
  | instruction i =>
    cases x' with
    | instruction j => exact .instruction (Item.instruction.inj h)
    | _ => cases h
  | call c =>
    cases x' with
    | call c' => exact .call ⟨Item.call.inj h, hreached c List.mem_cons_self⟩
    | _ => cases h
  | comment text place =>
    cases x' with
    | comment text' place' => exact .dropped rfl rfl
    | _ => cases h
  | declaration name parameters body place =>
    cases x' with
    | declaration name' parameters' body' place' => exact .dropped rfl rfl
    | _ => cases h

theorem forall₂_matched_of_mapPlace_eq {items items' : List Item}
    (h : items'.map (Item.mapPlace m) = items.map (Item.mapPlace m))
    (hreached : ∀ c ∈ calls items, p.Reached c) (origin origin' : Option Location) :
    Forall₂ (reachBond m p).Matched (trace origin items) (trace origin' items') := by
  induction items generalizing items' with
  | nil =>
    rw [List.map_nil, List.map_eq_nil_iff] at h
    rw [h]
    exact .nil
  | cons x items ih =>
    cases items' with
    | nil => cases h
    | cons x' items' =>
      obtain ⟨hx, hitems⟩ := List.cons.inj h
      rw [← List.singleton_append, calls_append] at hreached
      refine .cons (matched_of_mapPlace_eq hx (fun c hc => ?_) origin origin') (ih hitems ?_)
      · exact hreached c (List.mem_append_left _ hc)
      · exact fun c hc => hreached c (List.mem_append_right _ hc)

/-- Putting arguments in place leaves places alone. -/
theorem mapPlace_map_bindings (b : Bindings) (items : List Item) :
    (items.map b.item).map (Item.mapPlace m) = (items.map (Item.mapPlace m)).map b.item := by
  rw [List.map_map, List.map_map]
  exact List.map_congr_left fun x _ => Item.mapPlace_bindings m b x

/-- Reporting a bad call keeps the counts of two lenient runs the same. -/
theorem reported_reachBond {settings : Settings} (hlenient : settings.strict = false)
    {s s' : State} (hs : s'.calls = s.calls) (c c' : Call) (origin origin' : Option Location)
    (d d' : Diagnostic) :
    (reachBond m p).Reported (s.report settings c origin d)
      (s'.report settings c' origin' d') := by
  obtain ⟨hcalls, hgoes⟩ := calls_report settings c origin d s
  obtain ⟨hcalls', hgoes'⟩ := calls_report settings c' origin' d' s'
  refine Bond.reported_of ?_ ?_
  · exact hcalls'.trans (hs.trans hcalls.symm)
  · rw [hgoes hlenient, hgoes' hlenient]

/-- Tables that agree on reached calls keep two lenient runs in step. -/
theorem holds_reachBond {settings : Settings} (hlenient : settings.strict = false)
    {table table' : Table} (hp : table.Declares p) (hq : table'.Declares q)
    (hagree : ∀ c, p.Reached c →
      Option.Rel (Declaration.AlikeUpTo m) (p.declared? c.name) (q.declared? c.name)) :
    (reachBond m p).Holds settings table table' where
  calls h := h
  count _ := rfl
  name h := (Call.mk.inj h.1).1
  met := by
    rintro c c' origin origin' ⟨hcall, hreached⟩
    obtain ⟨hname, harguments, _⟩ := Call.mk.inj hcall
    have hrel := hagree c hreached
    generalize hd : p.declared? c.name = found at hrel
    generalize hd' : q.declared? c.name = found' at hrel
    rw [← hname] at hd'
    cases hrel with
    | none =>
      exact .bad (resolve_of_undeclared hp hd) (resolve_of_undeclared hq hd') fun s s' hs =>
        reported_reachBond hlenient hs c c' origin origin' _ _
    | @some d d' halike =>
      obtain ⟨hparameters, hbody⟩ := halike
      have hresolve := resolve_of_declared hp hd
      have hresolve' := resolve_of_declared hq hd'
      have harity : d'.arity = d.arity := congrArg List.length hparameters
      rw [harguments, harity] at hresolve'
      by_cases hlength : c.arguments.length = d.arity
      · rw [if_pos hlength] at hresolve hresolve'
        refine .good hresolve hresolve' ?_
        rw [hparameters, harguments]
        refine forall₂_matched_of_mapPlace_eq ?_ ?_ _ _
        · rw [mapPlace_map_bindings, mapPlace_map_bindings, hbody]
        · exact hreached.of_body (target?_eq_some.mpr ⟨hd, hlength⟩)
      · rw [if_neg hlength] at hresolve hresolve'
        exact .bad hresolve hresolve' fun s s' hs =>
          reported_reachBond hlenient hs c c' origin origin' _ _

/-! ## Expanding -/

/-- **Programs that agree on what is reached** are expanded alike by a lenient expander: in as
many passes and calls, to instructions that differ only in places that `m` does not tell apart,
or they are given up for the same reason. -/
theorem expand_congr_of_reached {e : Expander} (hlenient : e.settings.strict = false)
    (hcode : q.code.map (Item.mapPlace m) = p.code.map (Item.mapPlace m))
    (hagree : ∀ c, p.Reached c →
      Option.Rel (Declaration.AlikeUpTo m) (p.declared? c.name) (q.declared? c.name)) :
    (e.expand q).expander.passes = (e.expand p).expander.passes ∧
      (e.expand q).expander.calls = (e.expand p).expander.calls ∧
      (e.expand q).outcome.map (List.map (Instruction.mapPlace m)) =
        (e.expand p).outcome.map (List.map (Instruction.mapPlace m)) := by
  have hitems : Forall₂ (reachBond m p).Matched (trace none p.code) (trace none q.code) := by
    refine forall₂_matched_of_mapPlace_eq hcode (fun c hc => ?_) none none
    rw [calls_code] at hc
    exact .top hc
  have hend : (reachBond m p).RunsEnd (e.runOf p) (e.runOf q) :=
    (holds_reachBond hlenient (Table.declares_collect p) (Table.declares_collect q)
      hagree).runOf rfl hitems rfl
  simp only [Expander.passes_expand, Expander.calls_expand, Expander.outcome_expand]
  generalize e.runOf p = r at hend
  generalize e.runOf q = r' at hend
  cases hend with
  | @returned _ _ _ is js hcalls his =>
    have hjs : js.map (Instruction.mapPlace m) = is.map (Instruction.mapPlace m) := by
      rw [← List.forall₂_eq_eq_eq, List.forall₂_map_left_iff, List.forall₂_map_right_iff]
      exact his.flip
    exact ⟨rfl, hcalls, congrArg Except.ok hjs⟩
  | failed hcalls => exact ⟨rfl, hcalls, rfl⟩
  | stopped hd => exact hd.elim

end

/-- Two expansions that come to the same: equal instructions or the same reason to give up, after
as many passes and calls.  Diagnostics may differ. -/
structure Expanded.Agrees (r r' : Expanded) : Prop where
  outcome : r'.outcome = r.outcome
  passes : r'.expander.passes = r.expander.passes
  calls : r'.expander.calls = r.expander.calls

theorem Expanded.Agrees.symm {r r' : Expanded} (h : r.Agrees r') : r'.Agrees r :=
  ⟨h.outcome.symm, h.passes.symm, h.calls.symm⟩

/-- A declaration with the parameters and the body of another one. -/
def Declaration.Copies (d d' : Declaration) : Prop :=
  d'.parameters = d.parameters ∧ d'.body = d.body

/-- A declaration with the parameters of another one and a body that differs at most in
places. -/
def Declaration.CopiesUpToPlaces (d d' : Declaration) : Prop :=
  d'.parameters = d.parameters ∧ Item.sameAll d.body d'.body = true

section

variable {e : Expander} {p q : Program}

theorem rel_mono {r r' : Declaration → Declaration → Prop} (h : ∀ d d', r d d' → r' d d')
    {o o' : Option Declaration} (ho : Option.Rel r o o') : Option.Rel r' o o' := by
  cases ho with
  | none => exact .none
  | some hd => exact .some (h _ _ hd)

/-- Equal programs, as far as they are reached, have equal expansions. -/
theorem agrees_of_copies (hlenient : e.settings.strict = false) (hcode : q.code = p.code)
    (hagree : ∀ c, p.Reached c →
      Option.Rel Declaration.Copies (p.declared? c.name) (q.declared? c.name)) :
    (e.expand p).Agrees (e.expand q) := by
  have halike (d d' : Declaration) (h : d.Copies d') : d.AlikeUpTo id d' :=
    ⟨h.1, by rw [h.2]⟩
  obtain ⟨hpasses, hcalls, hout⟩ := expand_congr_of_reached (m := id) hlenient
    (by rw [hcode]) fun c hc => rel_mono halike (hagree c hc)
  have hmap (o : Except Diagnostic (List Instruction)) :
      o.map (List.map (Instruction.mapPlace id)) = o := by
    have hid : (Instruction.mapPlace id : Instruction → Instruction) = id := rfl
    cases o <;> simp [Except.map, hid]
  rw [hmap, hmap] at hout
  exact ⟨hout, hpasses, hcalls⟩

/-- So have programs that declare the same under every name that is reached. -/
theorem agrees_of_declared (hlenient : e.settings.strict = false) (hcode : q.code = p.code)
    (hdeclared : ∀ c, p.Reached c → q.declared? c.name = p.declared? c.name) :
    (e.expand p).Agrees (e.expand q) := by
  refine agrees_of_copies hlenient hcode fun c hc => ?_
  rw [hdeclared c hc]
  cases p.declared? c.name with
  | none => exact .none
  | some d => exact .some ⟨rfl, rfl⟩

/-- Programs that are the same up to places, as far as they are reached, have the same
expansions up to places. -/
theorem same_of_copiesUpToPlaces (hlenient : e.settings.strict = false)
    (hcode : Item.sameAll p.code q.code = true)
    (hagree : ∀ c, p.Reached c →
      Option.Rel Declaration.CopiesUpToPlaces (p.declared? c.name) (q.declared? c.name)) :
    (e.expand q).expander.passes = (e.expand p).expander.passes ∧
      (e.expand q).expander.calls = (e.expand p).expander.calls ∧
      (e.expand q).outcome.map (List.map Instruction.unplaced) =
        (e.expand p).outcome.map (List.map Instruction.unplaced) := by
  have hforget {xs ys : List Item} (h : Item.sameAll xs ys = true) :
      ys.map (Item.mapPlace nowhere) = xs.map (Item.mapPlace nowhere) := by
    rw [← Program.mapPlace_eq_map, ← Program.mapPlace_eq_map]
    exact ((Item.sameAll_iff xs ys).mp h).symm
  exact expand_congr_of_reached (m := nowhere) hlenient (hforget hcode) fun c hc =>
    rel_mono (fun d d' h => ⟨h.1, hforget h.2⟩) (hagree c hc)

/-! ## Declarations that come and go -/

/-- A declaration may stand before or after what it does not compete with. -/
theorem agrees_move (hlenient : e.settings.strict = false) {d : Declaration} {ys : Program}
    (hys : ys.declared? d.name = none) (xs zs : Program) :
    (e.expand (xs ++ d.item :: (ys ++ zs))).Agrees (e.expand (xs ++ (ys ++ d.item :: zs))) := by
  have hitem : d.item.isCode = false := rfl
  refine agrees_of_declared hlenient ?_ fun c _ => ?_
  · simp only [code_append, code_cons_of_not_isCode hitem]
  · simp only [declared?_append, declared?_cons_item]
    by_cases hname : d.name = c.name
    · simp [← hname, hys]
    · simp [hname]

/-- Comments may be put anywhere. -/
theorem agrees_comment (hlenient : e.settings.strict = false) (text : String)
    (place : Option Location) (xs ys : Program) :
    (e.expand (xs ++ ys)).Agrees (e.expand (xs ++ .comment text place :: ys)) := by
  have hitem : (Item.comment text place).isCode = false := rfl
  refine agrees_of_declared hlenient ?_ fun c _ => ?_
  · simp only [code_append, code_cons_of_not_isCode hitem]
  · simp only [declared?_append, declared?_cons_comment]

/-- A declaration may be added or removed if it is a repetition or if it is not reached. -/
theorem agrees_declaration (hlenient : e.settings.strict = false) {d : Declaration}
    {xs ys : Program} (h : (xs.declared? d.name).isSome ∨
      (∀ c, Reached (xs ++ ys) c → c.name ≠ d.name) ∨
      ∀ c, Reached (xs ++ d.item :: ys) c → c.name ≠ d.name) :
    (e.expand (xs ++ ys)).Agrees (e.expand (xs ++ d.item :: ys)) := by
  have hcode : code (xs ++ d.item :: ys) = code (xs ++ ys) := by
    have hitem : d.item.isCode = false := rfl
    simp only [code_append, code_cons_of_not_isCode hitem]
  have hother {c : Call} (hc : c.name ≠ d.name) :
      declared? (xs ++ d.item :: ys) c.name = declared? (xs ++ ys) c.name := by
    rw [declared?_append, declared?_append, declared?_cons_item, if_neg hc.symm]
  rcases h with hfirst | hunreached | hunreached
  · refine agrees_of_declared hlenient hcode fun c _ => ?_
    by_cases hc : c.name = d.name
    · obtain ⟨first, hfirst⟩ := Option.isSome_iff_exists.mp hfirst
      rw [declared?_append, declared?_append, hc, hfirst]
      rfl
    · exact hother hc
  · exact agrees_of_declared hlenient hcode fun c hc => hother (hunreached c hc)
  · -- the calls that are reached may be looked up in either program
    exact (agrees_of_declared hlenient hcode.symm fun c hc =>
      (hother (hunreached c hc)).symm).symm

end

/-- **Only the macros that are reached matter.**  A lenient expander makes the same of two
programs with the same instructions and calls that declare the same, parameters and body, or
both nothing, under the name of every call that is reached; if the programs agree up to places,
it makes the same of them up to places.  So declarations may be moved across anything that does
not declare the name, comments may come and go, and so may declarations of names that are
declared before or that no reached call has. -/
theorem only_reached_macros_matter (e : Expander) (hlenient : e.settings.strict = false) :
    (∀ p q : Program, q.code = p.code →
      (∀ c, p.Reached c →
        Option.Rel Declaration.Copies (p.declared? c.name) (q.declared? c.name)) →
      (e.expand p).Agrees (e.expand q)) ∧
    (∀ p q : Program, Item.sameAll p.code q.code = true →
      (∀ c, p.Reached c →
        Option.Rel Declaration.CopiesUpToPlaces (p.declared? c.name) (q.declared? c.name)) →
      (e.expand q).expander.passes = (e.expand p).expander.passes ∧
        (e.expand q).expander.calls = (e.expand p).expander.calls ∧
        (e.expand q).outcome.map (List.map Instruction.unplaced) =
          (e.expand p).outcome.map (List.map Instruction.unplaced)) ∧
    (∀ (d : Declaration) (xs ys zs : Program), ys.declared? d.name = none →
      (e.expand (xs ++ d.item :: (ys ++ zs))).Agrees (e.expand (xs ++ (ys ++ d.item :: zs)))) ∧
    (∀ (text : String) (place : Option Location) (xs ys : Program),
      (e.expand (xs ++ ys)).Agrees (e.expand (xs ++ .comment text place :: ys))) ∧
    ∀ (d : Declaration) (xs ys : Program),
      ((xs.declared? d.name).isSome ∨
        (∀ c, Reached (xs ++ ys) c → c.name ≠ d.name) ∨
        ∀ c, Reached (xs ++ d.item :: ys) c → c.name ≠ d.name) →
      (e.expand (xs ++ ys)).Agrees (e.expand (xs ++ d.item :: ys)) :=
  ⟨fun _ _ => agrees_of_copies hlenient, fun _ _ => same_of_copiesUpToPlaces hlenient,
    fun _ xs _ zs hys => agrees_move hlenient hys xs zs,
    fun text place xs ys => agrees_comment hlenient text place xs ys,
    fun _ _ _ => agrees_declaration hlenient⟩

/-- `chain` with its declarations after the call and in another order, among a comment, a macro
that calls itself and another declaration of `G`. -/
def scattered : Program :=
  [.call { name := "F", arguments := ["a", "b"] },
   .declaration "F" ["x", "x"]
     [.call { name := "G", arguments := ["x"] },
      .instruction { opcode := .sto, operand := some "y" }] (some ⟨"f", 2, 1⟩),
   .comment " not reached" none,
   .declaration "R" [] [.call { name := "R" }] none,
   .declaration "G" ["x"] [.instruction { opcode := .add, operand := some "x" }] none,
   .declaration "G" [] [.call { name := "R" }] none]

theorem reached_chain {c : Call} (h : chain.Reached c) :
    c = { name := "F", arguments := ["a", "b"] } ∨ c = { name := "G", arguments := ["a"] } := by
  induction h with
  | top hc => exact .inl (List.mem_singleton.mp hc)
  | under _ hc ih =>
    rcases ih with rfl | rfl
    · exact .inr (List.mem_singleton.mp hc)
    · cases hc

/-- `scattered` is expanded like `chain`, and so is `chain` with a macro that calls itself but is
not called. -/
theorem expand_scattered_agrees :
    let e : Expander := {}
    let loop : Declaration := ⟨"R", [], [.call { name := "R" }], none⟩
    e.settings.strict = false ∧ scattered.code = chain.code ∧
      (∀ c, chain.Reached c →
        Option.Rel Declaration.Copies (chain.declared? c.name) (scattered.declared? c.name)) ∧
      (∀ c, chain.Reached c → c.name ≠ loop.name) ∧
      (e.expand chain).Agrees (e.expand scattered) ∧
      (e.expand chain).Agrees (e.expand (chain ++ [loop.item])) ∧
      (e.expand scattered).outcome.isOk = true := by
  intro e loop
  have hcopies : ∀ c, chain.Reached c →
      Option.Rel Declaration.Copies (chain.declared? c.name) (scattered.declared? c.name) := by
    intro c hc
    rcases reached_chain hc with rfl | rfl
    · exact .some ⟨rfl, rfl⟩
    · exact .some ⟨rfl, rfl⟩
  have hloop : ∀ c, chain.Reached c → c.name ≠ loop.name := by
    intro c hc
    rcases reached_chain hc with rfl | rfl
    · decide
    · decide
  obtain ⟨hagrees, _, _, _, hadded⟩ := only_reached_macros_matter e rfl
  refine ⟨rfl, rfl, hcopies, hloop, hagrees chain scattered rfl hcopies, ?_, by decide +kernel⟩
  exact hadded loop chain [] (.inr (.inl hloop))

end MacroAsm
