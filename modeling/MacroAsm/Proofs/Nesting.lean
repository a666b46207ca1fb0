import MacroAsm.Proofs.Reading

/-!
# MacroAsm.Proofs.Nesting

How deep declarations are nested, and when that is too deep to be read.

* `overrun_eq_none_iff` — reading gives up if more bodies come to be open at once than it can
  take; `peak` counts them;
* `height_of_build` — what has been read so far and what is still to come add up to the bodies
  that lie in each other in the program (`Program.height`);
* `nesting_eq_height` — so a text that is read is nested as deep as its program.
-/

namespace MacroAsm

mutual
/-- How many bodies lie in each other in an item. -/
def Item.height : Item → Nat
  | .instruction _ => 0
  | .call _ => 0
  | .comment .. => 0
  | .declaration _ _ body _ => Program.height body + 1

/-- How many bodies lie in each other in a program. -/
def Program.height : Program → Nat
  | [] => 0
  | x :: xs => max x.height (Program.height xs)
end

namespace Program

theorem height_append (p q : Program) : height (p ++ q) = max p.height q.height := by
  induction p with
  | nil => simp [height]
  | cons x p ih => simp only [List.cons_append, height, ih, Nat.max_assoc]

theorem height_reverse (p : Program) : height p.reverse = p.height := by
  induction p with
  | nil => rfl
  | cons x p ih =>
    simp only [List.reverse_cons, height_append, height, ih, Nat.max_zero]
    exact Nat.max_comm ..

end Program

namespace Reader

variable {stop : Location} {frames : List Frame} {items : List Item} {ts : List Token}

/-! ## Bodies that are open at once -/

/-- How many bodies come to be open at once if reading goes on with `depth` of them open. -/
def peak (stop : Location) (depth : Nat) (ts : List Token) : Nat :=
  match _h : front stop ts with
  | .error _ => depth
  | .ok .finish => depth
  | .ok (.close _ rest) =>
    match depth with
    | 0 => 0
    | outer + 1 => max (outer + 1) (peak stop outer rest)
  | .ok (.item _ rest) => peak stop depth rest
  | .ok (.opening _ rest) => peak stop (depth + 1) rest
termination_by ts.length
decreasing_by
  all_goals
    rcases length_rest_lt_of_front _h with hf | hf
    · cases hf
    · exact hf

theorem le_peak (stop : Location) (depth : Nat) (ts : List Token) : depth ≤ peak stop depth ts := by
  fun_induction peak stop depth ts with
  | case1 | case2 => exact Nat.le_refl _
  | case3 => exact Nat.zero_le _
  | case4 => exact Nat.le_max_left ..
  | case5 depth ts item rest hfront ih => exact ih
  | case6 depth ts head rest hfront ih => exact Nat.le_of_succ_le ih

section

variable {depth : Nat} {rest : List Token}

theorem peak_of_error {e : Halt} (h : front stop ts = .error e) : peak stop depth ts = depth := by
  rw [peak]
  grind

theorem peak_of_finish (h : front stop ts = .ok .finish) : peak stop depth ts = depth := by
  rw [peak]
  grind

theorem peak_of_stray {place : Location} (h : front stop ts = .ok (.close place rest)) :
    peak stop 0 ts = 0 := by
  rw [peak]
  grind

theorem peak_of_close {place : Location} (h : front stop ts = .ok (.close place rest)) :
    peak stop (depth + 1) ts = max (depth + 1) (peak stop depth rest) := by
  rw [peak]
  grind

theorem peak_of_item {x : Item} (h : front stop ts = .ok (.item x rest)) :
    peak stop depth ts = peak stop depth rest := by
  rw [peak]
  grind

theorem peak_of_opening {hd : Head} (h : front stop ts = .ok (.opening hd rest)) :
    peak stop depth ts = peak stop (depth + 1) rest := by
  rw [peak]
  grind

end

/-- **Reading gives up if too many bodies come to be open at once**, and only then. -/
theorem overrun_eq_none_iff {deepest : Nat} (hframes : frames.length ≤ deepest) :
    overrun deepest stop frames items ts = none ↔ peak stop frames.length ts ≤ deepest := by
  fun_induction overrun deepest stop frames items ts with
  | case1 frames items ts e hfront => simp [peak_of_error hfront, hframes]
  | case2 frames items ts hfront => simp [peak_of_finish hfront, hframes]
  | case3 items ts place rest hfront => simp [peak_of_stray hfront]
  | case4 items ts place rest hfront hd before frames ih =>
    rw [List.unattach_reverse, List.unattach_attach] at ih
    rw [List.length_cons] at hframes
    rw [Option.map_eq_none_iff, ih (by omega), List.length_cons, peak_of_close hfront]
    omega
  | case5 frames items ts x rest hfront ih => rw [ih hframes, peak_of_item hfront]
  | case6 frames items ts hd rest hfront hroom ih =>
    rw [ih hroom, peak_of_opening hfront, List.length_cons]
  | case7 frames items ts hd rest hfront hfull =>
    have hpeak := le_peak stop (frames.length + 1) rest
    rw [peak_of_opening hfront]
    constructor
    · intro h
      cases h
    · intro h
      omega

/-! ## Bodies in the program -/

/-- The program that the items read so far make if every open body is closed at once. -/
def unwind : List Frame → List Item → Program
  | [], items => items.reverse
  | ⟨h, before⟩ :: frames, items => unwind frames (h.declare items.reverse :: before)

theorem height_unwind_cons (frames : List Frame) (x : Item) (items : List Item) :
    (unwind frames (x :: items)).height =
      max (frames.length + x.height) (unwind frames items).height := by
  induction frames generalizing x items with
  | nil => simp only [unwind, Program.height_reverse, Program.height, List.length_nil, Nat.zero_add]
  | cons frame frames ih =>
    obtain ⟨h, before⟩ := frame
    simp only [unwind, ih, Head.declare, Item.height, Program.height_reverse, Program.height,
      List.length_cons]
    omega

theorem length_le_height_unwind (frames : List Frame) (items : List Item) :
    frames.length ≤ (unwind frames items).height := by
  cases frames with
  | nil => exact Nat.zero_le _
  | cons frame frames =>
    obtain ⟨h, before⟩ := frame
    simp only [unwind, height_unwind_cons, Head.declare, Item.height, List.length_cons]
    omega

/-- What is read as one item has no body. -/
theorem height_of_front {x : Item} {rest : List Token} (h : front stop ts = .ok (.item x rest)) :
    x.height = 0 := by
  cases Shape.of_front h with
  | item _ hleaf => cases hleaf <;> rw [Item.height]

/-- **What has been read and what is still to come** add up to the height of the program. -/
theorem height_of_build {p : Program} (h : (build stop frames items ts).outcome = .ok p) :
    p.height = max (unwind frames items).height (peak stop frames.length ts) := by
  fun_induction build stop frames items ts with
  | case1 => cases h
  | case2 items ts hfront =>
    cases h
    rw [peak_of_finish hfront, unwind, List.length_nil, Nat.max_zero]
  | case3 => cases h
  | case4 => cases h
  | case5 items ts place rest hfront hd before frames ih =>
    rw [List.unattach_reverse, List.unattach_attach] at ih
    have hlength := length_le_height_unwind (⟨hd, before⟩ :: frames) items
    rw [ih h, List.length_cons, peak_of_close hfront, unwind]
    rw [List.length_cons, unwind] at hlength
    omega
  | case6 frames items ts x rest hfront ih =>
    have hlength := length_le_height_unwind frames items
    rw [ih h, height_unwind_cons, height_of_front hfront, peak_of_item hfront]
    omega
  | case7 frames items ts hd rest hfront ih =>
    have hpeak := le_peak stop (frames.length + 1) rest
    rw [ih h, unwind, height_unwind_cons, peak_of_opening hfront, List.length_cons, Head.declare,
      Item.height, List.reverse_nil, Program.height]
    omega

end Reader

namespace Program

/-- How deep the declarations of a source text are nested, as far as it is read. -/
def nesting (file source : String) : Nat :=
  match Token.scan file source with
  | ⟨_, some _⟩ => 0
  | ⟨tokens, none⟩ =>
    let input := Reader.Input.ofTokens file tokens
    Reader.peak input.stop 0 input.tokens

theorem overrun?_eq_none_iff {deepest : Nat} {file source : String} :
    overrun? deepest file source = none ↔ nesting file source ≤ deepest := by
  rw [overrun?, nesting]
  cases Token.scan file source with
  | mk tokens stop =>
    cases stop with
    | some foreign => simp
    | none =>
      have hempty : ([] : List Reader.Frame).length ≤ deepest := Nat.zero_le _
      exact Reader.overrun_eq_none_iff hempty

/-- **A text that is read is nested as deep as its program.** -/
theorem nesting_eq_height {file source : String} {p : Program}
    (h : (ofSource file source).outcome = .ok p) : nesting file source = p.height := by
  rw [nesting]
  cases hscan : Token.scan file source with
  | mk tokens stop =>
    cases stop with
    | some foreign =>
      rw [ofSource, hscan] at h
      cases h
    | none =>
      rw [outcome_ofSource hscan, ofTokens_eq_ok_iff] at h
      have hread : (Reader.read (.ofTokens file tokens)).outcome = .ok p :=
        Reader.read_eq_ok_iff.mpr h
      have hheight := Reader.height_of_build hread
      simpa [Reader.unwind, height] using hheight.symm

end Program

end MacroAsm
