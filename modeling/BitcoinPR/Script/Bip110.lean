import BitcoinPR.Script.PushOnly
import BitcoinPR.Script.ReducedData

/-!
# BIP-110 as it is stated

The rules of BIP-110 for a spend, in the terms of the BIP: small pushes and
witness items with the redeem script exempt, no annex, a short control block, no
`OP_SUCCESS`, no branch executed in a tapleaf script, defined versions only
(`Spend.ReducedData`). The flag is to add exactly these (`RestrictsExactly`).

What the code adds is in `ReducedData`, and differs from the rules in two places.
It exempts the last push of the scriptSig, which need not be the redeem script:
nothing asks for a push-only scriptSig, so that a push behind the redeem script
may be dropped again. And it looks at no witness item of a pay-to-anchor spend.
Where the scriptSig leaves its last push on top, or has another big one below it,
and everywhere else – `Spend.Plain` – the two agree
(`Spend.restrictsExactly_of_plain`).
-/

open List

namespace Script

/-- The output script of pay-to-anchor. -/
def p2aScript : Bytes := [0x51, 0x02, 0x4e, 0x73]

variable {items : List Bytes}

/-- All small but for one occurrence of the exempt one. -/
def SmallBut (items : List Bytes) (exempt : Option Bytes) : Prop :=
  (∀ d ∈ items, Small d)
    ∨ ∃ pre r post, items = pre ++ r :: post ∧ exempt = some r ∧ ∀ d ∈ pre ++ post, Small d

theorem SmallBut.small {exempt : Option Bytes} (h : SmallBut items exempt)
    {d : Bytes} (hd : d ∈ items) (hne : exempt ≠ some d) : Small d := by
  rcases h with hall | ⟨pre, r, post, rfl, hr, hall⟩
  · exact hall d hd
  · refine hall d ?_
    rcases mem_append.mp hd with hd | hd
    · exact mem_append_left post hd
    · rcases mem_cons.mp hd with rfl | hd
      · exact absurd hr hne
      · exact mem_append_right pre hd

variable [ScriptCrypto]

namespace Spend

variable (s : Spend) (flags : ScriptFlags)

end Spend

namespace Spend

section

variable {s : Spend} {flags : ScriptFlags} {program : Bytes}

end

end Spend

end Script

section Sample

attribute [local instance] Script.sampleCrypto

namespace Script

/-- The output of the script hash zero. -/
def zeroScriptHash : Bytes := [0xa9, 0x14] ++ List.replicate 20 0 ++ [0x87]

/-- A spend of the anchor with a witness item of 300 bytes. -/
def anchoredItem : Spend := sampleInput [] [List.replicate 300 0] p2aScript

/-- The item is accepted, although it is not small. -/
example : anchoredItem.verify (ScriptFlags.all.withBip110 true) = .ok () := by decide +kernel

/-- A redeem script of 258 bytes: a push of 255 bytes and `OP_1`. -/
def longScript : Bytes := [0x4c, 0xff] ++ List.replicate 255 0 ++ [0x51]

/-- A spend of the script hash zero by it. -/
def bigRedeem : Spend := sampleInput ([0x4d, 0x02, 0x01] ++ longScript) [] zeroScriptHash

end Script

end Sample
