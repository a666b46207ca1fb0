import MacroAsm.Proofs.Evaluation

/-!
# MacroAsm.Proofs.Unfolding

The tree of calls under a program, cut into layers.  The calls of the program
itself are the first layer; under a call stand the calls in the body of its macro,
with the arguments that they get there.  The tree may have no end, but each of
its layers is a finite list.

Putting the bodies in place of all calls of a program at once (`unfold`) takes
the first layer off the tree and leaves the rest of it, and the meaning, as they
are:

* `calls_flatMap_unfold` — the calls of the new program are the next layer;
* `Means.unfold` and `Means.of_unfold` — it means the same, with a tree that is one
  layer lower;
* `Means.layer_eq_nil_iff` — the depth of a meaning is the number of layers.
-/

namespace MacroAsm

namespace Program

/-- Whether a call has a macro to run. -/
def expands (program : Program) (call : Call) : Bool := (program.target? call).isSome

/-- The calls directly under a call. -/
def subcalls (program : Program) (call : Call) : List Call :=
  match program.target? call with
  | none => []
  | some d => (calls d.body).map (Scope.bind d.parameters call.arguments).call

/-- The calls with `k` calls above them, up to and including one of the given
calls, from left to right. -/
def layer (program : Program) : Nat → List Call → List Call
  | 0, calls => calls
  | k + 1, calls => layer program k (calls.flatMap program.subcalls)

/-- The calls in the first `k` layers that have a macro to run: layer by layer, and
from left to right in each. -/
def agenda (program : Program) : Nat → List Call → List Call
  | 0, _ => []
  | k + 1, calls =>
    calls.filter program.expands ++ agenda program k (calls.flatMap program.subcalls)

/-- What takes the place of an item when all calls are replaced by the bodies of
their macros. -/
def unfold (program : Program) : Item → List Item
  | .instruction i => [.instruction i]
  | .call c =>
    match program.target? c with
    | none => []
    | some d => d.body.map (Scope.bind d.parameters c.arguments).item
  | _ => []

/-! ## Calls of lists of items -/

@[simp] theorem calls_nil : calls [] = [] := rfl

@[simp] theorem calls_cons_instruction (i : Instruction) (items : List Item) :
    calls (.instruction i :: items) = calls items := rfl

@[simp] theorem calls_cons_call (c : Call) (items : List Item) :
    calls (.call c :: items) = c :: calls items := rfl

@[simp] theorem calls_cons_comment (text : String) (place : Option Location)
    (items : List Item) : calls (.comment text place :: items) = calls items := rfl

@[simp] theorem calls_cons_declaration (name : String) (parameters : List String)
    (body : List Item) (place : Option Location) (items : List Item) :
    calls (.declaration name parameters body place :: items) = calls items := rfl

theorem calls_append (xs ys : List Item) : calls (xs ++ ys) = calls xs ++ calls ys :=
  List.filterMap_append

/-- Looking names up in an item does not make a call of it, and does not make it
another call. -/
theorem calls_map_item (scope : Scope) (items : List Item) :
    calls (items.map scope.item) = (calls items).map scope.call := by
  induction items with
  | nil => rfl
  | cons x items ih => cases x <;> simp [Scope.item, ih]

/-- The calls that take the place of the calls of a list of items are the next
layer of the tree. -/
theorem calls_flatMap_unfold (program : Program) (items : List Item) :
    calls (items.flatMap program.unfold) = (calls items).flatMap program.subcalls := by
  induction items with
  | nil => rfl
  | cons x items ih =>
      rw [List.flatMap_cons, calls_append, ih]
      cases x with
      | call c =>
          rw [calls_cons_call, List.flatMap_cons]
          congr 1
          simp only [unfold, subcalls]
          cases program.target? c with
          | none => rfl
          | some d => exact calls_map_item _ _
      | instruction i => simp [unfold]
      | comment text place => simp [unfold]
      | declaration name parameters body place => simp [unfold]

/-! ## Layers -/

@[simp] theorem layer_nil (program : Program) (k : Nat) : program.layer k [] = [] := by
  induction k with
  | zero => rfl
  | succ k ih => exact ih

theorem layer_succ (program : Program) (k : Nat) (cs : List Call) :
    program.layer (k + 1) cs = (program.layer k cs).flatMap program.subcalls := by
  induction k generalizing cs with
  | zero => rfl
  | succ k ih => rw [layer, ih, ← layer]

theorem layer_append (program : Program) (k : Nat) (cs ds : List Call) :
    program.layer k (cs ++ ds) = program.layer k cs ++ program.layer k ds := by
  induction k generalizing cs ds with
  | zero => rfl
  | succ k ih => simp only [layer, List.flatMap_append, ih]

theorem agenda_succ (program : Program) (k : Nat) (cs : List Call) :
    program.agenda (k + 1) cs =
      program.agenda k cs ++ (program.layer k cs).filter program.expands := by
  induction k generalizing cs with
  | zero => simp [agenda, layer]
  | succ k ih => rw [agenda, ih, ← List.append_assoc, ← agenda, layer]

/-- More layers only add to the agenda, at its end. -/
theorem agenda_mono {k n : Nat} (h : k ≤ n) (program : Program) (cs : List Call) :
    program.agenda k cs <+: program.agenda n cs := by
  induction h with
  | refl => exact List.prefix_rfl
  | step _ ih =>
      rw [agenda_succ]
      exact ih.trans (List.prefix_append _ _)

end Program

/-! ## Unfolding keeps the meaning -/

open Program

namespace Meaning

/-- The meanings before and after the first layer of a tree, with `n` calls that
have a macro to run, is taken off. -/
structure Unfolds (n : Nat) (m m' : Meaning) : Prop where
  instructions : m'.instructions = m.instructions
  depth : m'.depth = m.depth - 1
  expanded : m.expanded = n + m'.expanded

theorem Unfolds.append {n k : Nat} {l l' m m' : Meaning} (hl : Unfolds n l l')
    (hm : Unfolds k m m') : Unfolds (n + k) (l ++ m) (l' ++ m') where
  instructions := by rw [instructions_append, instructions_append, hl.instructions, hm.instructions]
  depth := by rw [depth_append, depth_append, hl.depth, hm.depth]; omega
  expanded := by rw [expanded_append, expanded_append, hl.expanded, hm.expanded]; omega

/-- An instruction is no part of the tree. -/
theorem unfolds_ofInstruction (i : Instruction) :
    Unfolds 0 (ofInstruction i) (ofInstruction i) := ⟨rfl, rfl, rfl⟩

/-- A call without a macro to run goes away. -/
theorem unfolds_dropped : Unfolds 0 dropped {} := ⟨rfl, rfl, rfl⟩

/-- A call with a macro to run gives way to its body. -/
theorem unfolds_called (body : Meaning) : Unfolds 1 body.called body :=
  ⟨rfl, rfl, Nat.add_comm _ _⟩

end Meaning

namespace Means

variable {program : Program} {items : List Item} {m : Meaning}

/-- Only items without calls have a tree without layers. -/
theorem depth_eq_zero_iff {scope : Scope} (h : Means program scope items m) :
    m.depth = 0 ↔ calls items = [] := by
  induction h with
  | nil => simp
  | instruction _ ih => simpa [Meaning.ofInstruction] using ih
  | comment _ ih => simpa using ih
  | declaration _ ih => simpa using ih
  | dropped _ _ _ => simp [Meaning.dropped]
  | expanded _ _ _ _ _ => simp [Meaning.called]

/-- An instruction at top level means itself. -/
theorem single_instruction (i : Instruction) :
    Means program .top [.instruction i] (.ofInstruction i) := by
  have h : Means program .top [.instruction i] (.ofInstruction (Scope.top.instruction i) ++ {}) :=
    .instruction .nil
  rw [Scope.instruction_top, Meaning.append_empty] at h
  exact h

/-- Items without calls mean their instructions. -/
theorem of_calls_eq_nil (h : calls items = []) :
    Means program .top items { instructions := instructions items } := by
  induction items with
  | nil => exact .nil
  | cons x items ih =>
      cases x with
      | instruction i =>
          exact (single_instruction i).append (ih h)
      | call c => simp at h
      | comment text place => exact .comment (ih h)
      | declaration name parameters body place => exact .declaration (ih h)

/-- A single item means the same after its call is unfolded. -/
theorem unfold_singleton {x : Item} (h : Means program .top [x] m) :
    ∃ m', Means program .top (program.unfold x) m' ∧
      m.Unfolds ((calls [x]).filter program.expands).length m' := by
  cases h with
  | instruction h =>
      cases h
      rw [Scope.instruction_top, Meaning.append_empty]
      exact ⟨_, single_instruction _, Meaning.unfolds_ofInstruction _⟩
  | comment h => cases h; exact ⟨{}, .nil, rfl, rfl, rfl⟩
  | declaration h => cases h; exact ⟨{}, .nil, rfl, rfl, rfl⟩
  | dropped hc h =>
      cases h
      rw [Scope.call_top] at hc
      refine ⟨{}, ?_, ?_⟩
      · simp only [Program.unfold, hc]
        exact .nil
      · simpa [expands, hc] using Meaning.unfolds_dropped
  | @expanded _ _ _ _ body _ hd hb h =>
      cases h
      rw [Scope.call_top] at hd hb
      refine ⟨body, ?_, ?_⟩
      · simp only [Program.unfold, hd]
        exact means_map_item.mpr hb
      · simpa [expands, hd] using Meaning.unfolds_called body

/-- What a single item means after its call is unfolded, it meant before. -/
theorem of_unfold_singleton {x : Item} {m' : Meaning}
    (h : Means program .top (program.unfold x) m') :
    ∃ m, Means program .top [x] m ∧
      m.Unfolds ((calls [x]).filter program.expands).length m' := by
  cases x with
  | instruction i =>
      rw [h.unique (single_instruction i)]
      exact ⟨_, single_instruction i, Meaning.unfolds_ofInstruction i⟩
  | comment text place => cases h; exact ⟨{}, .comment .nil, rfl, rfl, rfl⟩
  | declaration name parameters body place =>
      cases h
      exact ⟨{}, .declaration .nil, rfl, rfl, rfl⟩
  | call c =>
      simp only [Program.unfold] at h
      cases ht : program.target? c with
      | none =>
          simp only [ht] at h
          cases h
          refine ⟨.dropped ++ {}, .dropped ?_ .nil, ?_⟩
          · rw [Scope.call_top, ht]
          · simpa [expands, ht] using Meaning.unfolds_dropped
      | some d =>
          simp only [ht] at h
          have hd : program.target? (Scope.top.call c) = some d := by rw [Scope.call_top, ht]
          refine ⟨m'.called ++ {}, .expanded hd ?_ .nil, ?_⟩
          · rw [Scope.call_top]
            exact means_map_item.mp h
          · simpa [expands, ht] using Meaning.unfolds_called m'

/-- **Unfolding keeps the meaning**: items that mean something still do when their
calls are unfolded, with a tree that lacks the first layer. -/
theorem unfold (h : Means program .top items m) :
    ∃ m', Means program .top (items.flatMap program.unfold) m' ∧
      m.Unfolds ((calls items).filter program.expands).length m' := by
  induction items generalizing m with
  | nil => cases h; exact ⟨{}, .nil, rfl, rfl, rfl⟩
  | cons x items ih =>
      obtain ⟨a, b, ha, hb, rfl⟩ := means_cons.mp h
      obtain ⟨a', ha', hua⟩ := ha.unfold_singleton
      obtain ⟨b', hb', hub⟩ := ih hb
      refine ⟨a' ++ b', ?_, ?_⟩
      · rw [List.flatMap_cons]
        exact ha'.append hb'
      · rw [← List.singleton_append, calls_append, List.filter_append, List.length_append]
        exact hua.append hub

/-- Whatever items mean after their calls are unfolded, they meant before. -/
theorem of_unfold {m' : Meaning} (h : Means program .top (items.flatMap program.unfold) m') :
    ∃ m, Means program .top items m ∧
      m.Unfolds ((calls items).filter program.expands).length m' := by
  induction items generalizing m' with
  | nil => cases h; exact ⟨{}, .nil, rfl, rfl, rfl⟩
  | cons x items ih =>
      rw [List.flatMap_cons] at h
      obtain ⟨a', b', ha', hb', rfl⟩ := means_append.mp h
      obtain ⟨a, ha, hua⟩ := of_unfold_singleton ha'
      obtain ⟨b, hb, hub⟩ := ih hb'
      refine ⟨a ++ b, means_cons.mpr ⟨a, b, ha, hb, rfl⟩, ?_⟩
      rw [← List.singleton_append, calls_append, List.filter_append, List.length_append]
      exact hua.append hub

/-! ## The measures of a meaning are those of the tree -/

/-- The depth of a meaning is the number of layers of the tree. -/
theorem layer_eq_nil_iff (h : Means program .top items m) (k : Nat) :
    program.layer k (calls items) = [] ↔ m.depth ≤ k := by
  induction k generalizing items m with
  | zero => rw [Nat.le_zero, h.depth_eq_zero_iff, layer]
  | succ k ih =>
      obtain ⟨m', hm', hu⟩ := h.unfold
      rw [layer, ← calls_flatMap_unfold, ih hm', hu.depth]
      omega

/-- The layers down to the depth of a meaning hold all the calls that it counts. -/
theorem length_agenda_eq (h : Means program .top items m) {k : Nat} (hk : m.depth ≤ k) :
    (program.agenda k (calls items)).length = m.expanded := by
  induction k generalizing items m with
  | zero =>
      have hnil := h.depth_eq_zero_iff.mp (Nat.le_zero.mp hk)
      rw [h.unique (of_calls_eq_nil hnil)]
      rfl
  | succ k ih =>
      obtain ⟨m', hm', hu⟩ := h.unfold
      have hd := hu.depth
      rw [agenda, List.length_append, ← calls_flatMap_unfold, ih hm' (by omega), hu.expanded]

/-- No layers hold more calls with a macro to run than the meaning counts. -/
theorem length_agenda_le (h : Means program .top items m) (k : Nat) :
    (program.agenda k (calls items)).length ≤ m.expanded := by
  have hpre := agenda_mono (Nat.le_max_left k m.depth) program (calls items)
  rw [← h.length_agenda_eq (Nat.le_max_right k m.depth)]
  exact hpre.length_le

/-- Items whose tree has an end have a meaning. -/
theorem exists_of_layer_eq_nil {k : Nat} (h : program.layer k (calls items) = []) :
    ∃ m, Means program .top items m := by
  induction k generalizing items with
  | zero => exact ⟨_, of_calls_eq_nil h⟩
  | succ k ih =>
      rw [layer, ← calls_flatMap_unfold] at h
      obtain ⟨m', hm'⟩ := ih h
      obtain ⟨m, hm, _⟩ := of_unfold hm'
      exact ⟨m, hm⟩

/-- A meaning within two bounds is a tree within the same bounds. -/
theorem exists_iff_layers {k n : Nat} :
    (∃ m, Means program .top items m ∧ m.depth ≤ k ∧ m.expanded ≤ n) ↔
      program.layer k (calls items) = [] ∧ (program.agenda k (calls items)).length ≤ n := by
  constructor
  · rintro ⟨m, hm, hdepth, hexpanded⟩
    exact ⟨(hm.layer_eq_nil_iff k).mpr hdepth, Nat.le_trans (hm.length_agenda_le k) hexpanded⟩
  · rintro ⟨hlayer, hagenda⟩
    obtain ⟨m, hm⟩ := exists_of_layer_eq_nil hlayer
    have hdepth := (hm.layer_eq_nil_iff k).mp hlayer
    rw [hm.length_agenda_eq hdepth] at hagenda
    exact ⟨m, hm, hdepth, hagenda⟩

end Means

end MacroAsm
