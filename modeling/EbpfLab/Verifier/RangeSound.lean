import EbpfLab.Verifier.RangeKept

/-!
# Range arithmetic against the interpreter

When the range of an ALU result has every value the interpreter computes, and for which operations it
always does.
-/

namespace EbpfLab.Verifier
open Isa

/-- The operations whose range can lose a result: the bitwise ones and the shifts work on the bounds
alone, and so does the truncation to 32 bits. -/
def lossy : Width → AluOp → Bool
  | .b64, .and | .b64, .or | .b64, .lsh | .b64, .rsh => true
  | .b32, .add | .b32, .mov | .b32, .and | .b32, .or | .b32, .lsh | .b32, .rsh => true
  | _, _ => false

/-- Every operation that is not lossy keeps its results. -/
theorem keeps_lossless {width : Width} {op : AluOp} (kept : lossy width op = false) (r r' : Range) :
    Range.Keeps width op r r' := by
  cases width with
  | b64 =>
    cases op with
    | and | or | lsh | rsh => cases kept
    | _ => cases r <;> cases r' <;> first | trivial | exact nofun
  | b32 =>
    cases op with
    | add | mov | and | or | lsh | rsh => cases kept
    | _ => cases r <;> cases r' <;> trivial

end EbpfLab.Verifier
