/-!
# MacroAsm.Expansion.Limits

How long an expansion may go on.  A recursive macro never stops calling itself,
so both the number of passes and the number of expanded calls are bounded.
-/

namespace MacroAsm

/-- Bounds on an expansion, both at least one. -/
structure Limits where
  passes : Nat := 100
  calls : Nat := 100000
  passes_pos : 0 < passes := by decide
  calls_pos : 0 < calls := by decide

/-- A bound below one. -/
inductive LimitFault where
  | passes (given : Int)
  | calls (given : Int)
deriving DecidableEq, Repr

/-- The words for a bound below one. -/
def LimitFault.message : LimitFault → String
  | passes given => "max_passes must be at least 1, got " ++ toString given
  | calls given => "max_expansions must be at least 1, got " ++ toString given

namespace Limits

/-- Limits from integers.  The bound on passes is looked at first. -/
def ofInts (passes calls : Int) : Except LimitFault Limits :=
  if hp : passes < 1 then .error (.passes passes)
  else if hc : calls < 1 then .error (.calls calls)
  else .ok ⟨passes.toNat, calls.toNat, by omega, by omega⟩

end Limits

end MacroAsm
