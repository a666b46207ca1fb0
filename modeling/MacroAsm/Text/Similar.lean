import Std.Data.HashMap

/-!
# MacroAsm.Text.Similar

How alike two names are, and which of several names come closest to one.

The likeness of `a` and `b` is twice the number of matched characters over the
number of all characters.  The matched characters are those of the longest block
that both names share, together with the matched characters to its left and to
its right.  Of several longest blocks the first in `a` counts, and of those the
first in `b`.

In a long name, characters that occur all the time say little.  Such *popular*
characters do not make up a block by themselves, but a block takes in whatever
equal characters stand right beside it.
-/

namespace MacroAsm.Text.Similar

/-! ## Blocks -/

/-- Where each usable character stands in a text, by its code point; the first
place first. -/
def places (usable : Char → Bool) (text : List Char) : Std.HashMap Nat (List Nat) :=
  text.zipIdx.foldr (fun (c, i) known =>
    if usable c then known.insert c.toNat (i :: known.getD c.toNat []) else known) ∅

/-- Characters that two texts share side by side, up to a place of the second. -/
structure Run where
  last : Nat
  size : Nat

/-- The runs that end with one more character of the first text, which stands at
given places of the second.  Each of them goes on from the run that ended right
before its place, if there was one.  Runs and places ascend. -/
def Run.next : List Run → List Nat → List Run
  | [], places => places.map (⟨·, 1⟩)
  | _, [] => []
  | run :: runs, place :: places =>
    if run.last + 1 < place then next runs (place :: places)
    else if run.last + 1 = place then ⟨place, run.size + 1⟩ :: next runs places
    else ⟨place, 1⟩ :: next (run :: runs) places
termination_by runs places => runs.length + places.length

/-- Length of the longest common beginning of two texts. -/
def commonRun : List Char → List Char → Nat
  | x :: xs, y :: ys => if x = y then commonRun xs ys + 1 else 0
  | _, _ => 0

theorem commonRun_le_left (xs ys : List Char) : commonRun xs ys ≤ xs.length := by
  fun_induction commonRun xs ys with
  | case1 xs y ys ih => simpa using ih
  | case2 => omega
  | case3 => omega

/-- A block shared by two texts: where it starts in each and how long it is.  It
lies within the first text. -/
structure Block (a : List Char) where
  left : Nat
  right : Nat
  size : Nat
  fits : left + size ≤ a.length

namespace Block

/-- The empty block at the front of both texts. -/
def empty (a : List Char) : Block a := ⟨0, 0, 0, by omega⟩

/-- The block that is a run up to a place of the first text. -/
def ofRun (a : List Char) (last : Nat) (run : Run) : Block a :=
  let left := min (last + 1 - run.size) a.length
  ⟨left, run.last + 1 - run.size, min run.size (a.length - left), by omega⟩

/-- The longest of a block and of the runs up to a place of the first text; the
first of them if there are several. -/
def longer {a : List Char} (last : Nat) (block : Block a) (runs : List Run) : Block a :=
  runs.foldl (fun best run => if best.size < run.size then ofRun a last run else best) block

/-- The longest block of usable characters, the first of them in `a` and then in
`b`; the empty block if there is none. -/
def longest (usable : Char → Bool) (a b : List Char) : Block a :=
  let places := places usable b
  (a.zipIdx.foldl (fun (runs, best) (c, i) =>
    let runs := Run.next runs (places.getD c.toNat [])
    (runs, best.longer i runs)) (([] : List Run), empty a)).2

/-- The same block with the equal characters right before and right after it. -/
def widen {a : List Char} (b : List Char) (block : Block a) : Block a :=
  let before := commonRun (a.take block.left).reverse (b.take block.right).reverse
  let after := commonRun (a.drop (block.left + block.size))
    (b.drop (block.right + block.size))
  have hb : before ≤ block.left := by
    have := commonRun_le_left (a.take block.left).reverse
      (b.take block.right).reverse
    simp only [List.length_reverse, List.length_take] at this
    omega
  have ha : block.left + block.size + after ≤ a.length := by
    have := commonRun_le_left (a.drop (block.left + block.size))
      (b.drop (block.right + block.size))
    have := block.fits
    rw [List.length_drop] at *
    omega
  ⟨block.left - before, block.right - before, before + block.size + after, by omega⟩

end Block

/-- Number of matched characters. -/
def matched (usable : Char → Bool) (a b : List Char) : Nat :=
  match (Block.longest usable a b).widen b with
  | ⟨left, right, size, _⟩ =>
    if 0 < size then
      matched usable (a.take left) (b.take right) + size +
        matched usable (a.drop (left + size)) (b.drop (right + size))
    else 0
termination_by a.length
decreasing_by
  · rw [List.length_take]
    omega
  · rw [List.length_drop]
    omega

/-! ## Likeness -/

/-- How long a text is and how often each character occurs in it, by its code
point. -/
structure Tally where
  size : Nat
  counts : Std.HashMap Nat Nat

/-- Count the characters of a text. -/
def Tally.of (text : List Char) : Tally :=
  ⟨text.length,
    text.foldl (fun counts c => counts.insert c.toNat (counts.getD c.toNat 0 + 1)) ∅⟩

/-- Whether a character is popular in a name: names of 200 characters and more
have popular characters, those that take up more than a hundredth of the name,
rounded down, and one. -/
def Tally.isPopular (name : Tally) (c : Char) : Bool :=
  200 ≤ name.size && name.size / 100 + 1 < name.counts.getD c.toNat 0

/-- A likeness between zero and one, as a fraction. -/
structure Likeness where
  num : Nat
  den : Nat

namespace Likeness

/-- The likeness of a candidate and a name.  Two empty names are alike. -/
def of (usable : Char → Bool) (candidate name : List Char) : Likeness :=
  if candidate.isEmpty && name.isEmpty then ⟨1, 1⟩
  else ⟨2 * matched usable candidate name, candidate.length + name.length⟩

/-- Names count as close from a likeness of three fifths on. -/
def isClose (l : Likeness) : Bool := 3 * l.den ≤ 5 * l.num

/-- Whether one likeness is less than another. -/
def lt (l r : Likeness) : Bool := l.num * r.den < r.num * l.den

end Likeness

/-- Whether the first of two rated names goes before the second: the more alike
first, and of two that are equally alike the greater name first. -/
def goesBefore (x y : Likeness × String) : Bool :=
  Likeness.lt y.1 x.1 || (!Likeness.lt x.1 y.1 && !decide (x.2 < y.2))

/-- At most three of the candidates that are close to a name, the closest
first. -/
def closest (name : String) (candidates : List String) : List String :=
  let name := name.toList
  let tally := Tally.of name
  let rated := candidates.map fun candidate =>
    (Likeness.of (fun c => !tally.isPopular c) candidate.toList name, candidate)
  let close := rated.filter fun pair => pair.1.isClose
  ((close.mergeSort goesBefore).take 3).map (·.2)

end MacroAsm.Text.Similar
