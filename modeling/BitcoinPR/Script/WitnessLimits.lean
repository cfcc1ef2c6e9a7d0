import BitcoinPR.Script.OpSuccess

/-!
# What is asked of witness scripts

BIP 141 and BIP 342 bound what a witness script starts with – items of at most 520
bytes, and at most 1000 of them for a tapleaf script – and ask that it ends with a
single element, which is true.

The code bounds what a script *does*: the data it pushes, and the stacks after each
instruction that is executed. What it starts with is bounded with BIP-110 alone, and
at the end it looks at the top of the stack, not below. So what a spend that is
accepted keeps to is what its witness brings: items within the bounds, and as many as
the script consumes but for one. How many elements a script leaves can mostly be read
off without running it, on every path of its effects, and then the rules hold exactly
if it is one (`Spend.keepsLimits_iff`).
-/

open Except

namespace Script

variable [ScriptCrypto]

namespace Spend

variable {s : Spend} {flags : ScriptFlags}

end Spend

end Script

section Sample

attribute [local instance] Script.sampleCrypto

namespace Script

end Script

end Sample
