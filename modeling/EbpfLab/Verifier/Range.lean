import EbpfLab.Isa.Insn
import EbpfLab.Isa.Num

/-!
# Interval ranges

The interval abstract value of the verifier, its lattice and arithmetic operations, and the
refinement of a range by a comparison. Bounds are kept as the source computes them: nothing forces
`lo ≤ hi`.
-/

namespace EbpfLab.Verifier
open Isa

inductive Range where
  | bottom
  | interval (lo hi : Int64)
  | top
  deriving DecidableEq, Repr

namespace Range

def exact (v : Int64) : Range := .interval v v

/-- `i64::min`. -/
def lower (a b : Int64) : Int64 := if a ≤ b then a else b

/-- `i64::max`. -/
def upper (a b : Int64) : Int64 := if a ≤ b then b else a

def join : Range → Range → Range
  | .bottom, r | r, .bottom => r
  | .top, _ | _, .top => .top
  | .interval l1 h1, .interval l2 h2 => .interval (lower l1 l2) (upper h1 h2)

def meet : Range → Range → Range
  | .bottom, _ | _, .bottom => .bottom
  | .top, r | r, .top => r
  | .interval l1 h1, .interval l2 h2 =>
    let lo := upper l1 l2
    let hi := lower h1 h2
    if lo ≤ hi then .interval lo hi else .bottom

/-- Join that sends a bound moving outward to its extreme. -/
def widen : Range → Range → Range
  | .bottom, r | r, .bottom => r
  | .top, _ | _, .top => .top
  | .interval l1 h1, .interval l2 h2 =>
    let lo := if l2 < l1 then Int64.minValue else l1
    let hi := if h2 > h1 then Int64.maxValue else h1
    if lo = Int64.minValue ∧ hi = Int64.maxValue then .top else .interval lo hi

/-- An interval, or `top` when its bounds crossed. -/
def ordered (lo hi : Int64) : Range := if lo ≤ hi then .interval lo hi else .top

/-- `trunc32`: mask both bounds to the low word. -/
def trunc32 : Range → Range
  | .interval lo hi => ordered (lo &&& 0xFFFFFFFF) (hi &&& 0xFFFFFFFF)
  | r => r

/-- The shape the binary operators share: strict in `bottom`, `top` unless both sides are
intervals. -/
def lift (f : Int64 → Int64 → Int64 → Int64 → Range) : Range → Range → Range
  | .bottom, _ | _, .bottom => .bottom
  | .top, _ | _, .top => .top
  | .interval l1 h1, .interval l2 h2 => f l1 h1 l2 h2

/-- An interval from two checked bounds. -/
def checked (lo hi : Option Int64) : Range :=
  match lo, hi with
  | some lo, some hi => .interval lo hi
  | _, _ => .top

def add : Range → Range → Range :=
  lift fun l1 h1 l2 h2 => checked (checkedAdd l1 l2) (checkedAdd h1 h2)

def sub : Range → Range → Range :=
  lift fun l1 h1 l2 h2 => checked (checkedSub l1 h2) (checkedSub h1 l2)

def bitand : Range → Range → Range :=
  lift fun l1 h1 l2 h2 => ordered (l1 &&& l2) (h1 &&& h2)

def bitor : Range → Range → Range :=
  lift fun l1 h1 l2 h2 => ordered (l1 ||| l2) (h1 ||| h2)

def bitxor : Range → Range → Range := lift fun _ _ _ _ => .top

/-- Arithmetic right shift. -/
def sar : Range → Range → Range := lift fun _ _ _ _ => .top

/-- `u32::try_from` of a shift amount. -/
def shiftAmount (s : Int64) : Option Nat :=
  if 0 ≤ s.toInt ∧ s.toInt < 2 ^ 32 then some s.toInt.toNat else none

/-- `checked_shl(s).unwrap_or(i64::MAX)`. -/
def shlOrMax (v : Int64) (s : Nat) : Int64 :=
  if s < 64 then v <<< Int64.ofNat s else Int64.maxValue

def shl : Range → Range → Range :=
  lift fun lo hi s sh =>
    if lo ≥ 0 ∧ hi ≥ 0 ∧ s ≥ 0 ∧ sh ≤ 63 then
      match shiftAmount s, shiftAmount sh with
      | some s, some sh => ordered (shlOrMax lo s) (shlOrMax hi sh)
      | _, _ => .top
    else .top

/-- Logical right shift by a constant in `[0, 64)`. -/
def shr : Range → Range → Range :=
  lift fun lo hi sLo sHi =>
    if sLo = sHi ∧ 0 ≤ sLo ∧ sLo < 64 then
      .interval (lo.toUInt64 >>> sLo.toUInt64).toInt64 (hi.toUInt64 >>> sLo.toUInt64).toInt64
    else .top

/-- The values a range stands for. -/
def contains : Range → Int64 → Prop
  | .bottom, _ => False
  | .top, _ => True
  | .interval lo hi, v => lo ≤ v ∧ v ≤ hi

instance : (r : Range) → (v : Int64) → Decidable (r.contains v)
  | .bottom, _ => inferInstanceAs (Decidable False)
  | .top, _ => inferInstanceAs (Decidable True)
  | .interval lo hi, v => inferInstanceAs (Decidable (lo ≤ v ∧ v ≤ hi))

/-! ### Refinement -/

/-- Write a comparison and its outcome through `eq`, `lt`, `le` and their signed twins. -/
def normalize (op : JumpOp) (taken : Bool) : JumpOp × Bool :=
  match op with
  | .ne => (.eq, !taken)
  | .ge => (.lt, !taken)
  | .gt => (.le, !taken)
  | .sge => (.slt, !taken)
  | .sgt => (.sle, !taken)
  | op => (op, taken)

/-- `refine`: narrow a range by the outcome of a comparison with `k`. -/
def refine (range : Range) (op : JumpOp) (k : Int64) (taken : Bool) : Range :=
  match normalize op taken with
  | (.eq, true) => range.meet (exact k)
  | (.lt, true) | (.slt, true) => range.meet (.interval Int64.minValue (saturatingSub k 1))
  | (.lt, false) | (.slt, false) => range.meet (.interval k Int64.maxValue)
  | (.le, true) | (.sle, true) => range.meet (.interval Int64.minValue k)
  | (.le, false) | (.sle, false) => range.meet (.interval (saturatingAdd k 1) Int64.maxValue)
  | _ => range

end Range

end EbpfLab.Verifier
