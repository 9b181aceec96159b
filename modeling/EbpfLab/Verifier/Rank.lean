import Mathlib.Algebra.Order.BigOperators.Group.Finset
import Mathlib.Data.Fintype.BigOperators
import EbpfLab.Verifier.Frame

/-!
# The rank of an abstract state

Widening has finite height: whatever it is given, the result has no larger rank, and a smaller one
as soon as it differs.
-/

namespace EbpfLab.Verifier
open Isa Library

/-- `b` is `a`, or below it in rank. -/
def Sinks {α : Type} (rank : α → Nat) (a b : α) : Prop := b = a ∨ rank b < rank a

namespace Range

/-- How many more times a range can widen. -/
def rank : Range → Nat
  | .top => 0
  | .interval lo hi =>
    1 + (if lo = Int64.minValue then 0 else 1) + (if hi = Int64.maxValue then 0 else 1)
  | .bottom => 4

theorem rank_le (r : Range) : r.rank ≤ 4 := by
  cases r with
  | interval lo hi =>
    simp only [rank]
    split <;> split <;> omega
  | _ => simp [rank]

theorem rank_pos {r : Range} (below : r ≠ .top) : 0 < r.rank := by
  cases r with
  | interval lo hi =>
    simp only [rank]
    omega
  | bottom => simp [rank]
  | top => exact absurd rfl below

theorem sinks_widen (a b : Range) : Sinks rank a (a.widen b) := by
  match a, b with
  | .bottom, .bottom | .interval _ _, .bottom | .top, .bottom => exact Or.inl rfl
  | .top, .interval _ _ | .top, .top => exact Or.inl rfl
  | .bottom, .interval lo hi =>
    right
    simp only [widen, rank]
    split <;> split <;> omega
  | .bottom, .top | .interval _ _, .top =>
    right
    simp only [widen, rank]
    omega
  | .interval l1 h1, .interval l2 h2 =>
    -- a bound that moves goes to its extreme, where it stays
    simp only [widen]
    have low : l2 < l1 → l1 ≠ Int64.minValue := by
      rintro moved rfl
      exact absurd moved (Int64.not_lt.mpr (Int64.minValue_le _))
    have high : h2 > h1 → h1 ≠ Int64.maxValue := by
      rintro moved rfl
      exact absurd moved (Int64.not_lt.mpr (Int64.le_maxValue _))
    by_cases lowMoves : l2 < l1 <;> by_cases highMoves : h2 > h1 <;>
      simp only [lowMoves, highMoves, if_true, if_false]
    · exact Or.inr (by simp [rank])
    · have inner := low lowMoves
      by_cases full : h1 = Int64.maxValue <;> exact Or.inr (by simp [rank, inner, full])
    · have inner := high highMoves
      by_cases full : l1 = Int64.minValue <;> exact Or.inr (by simp [rank, inner, full])
    · by_cases full : l1 = Int64.minValue ∧ h1 = Int64.maxValue
      · exact Or.inr (by simp [rank, full])
      · exact Or.inl (if_neg full)

end Range

namespace RegType

def rank : RegType → Nat
  | .notInit => 0
  | .scalar r => 1 + r.rank
  | .stackPtr _ | .maybeMapPtr _ | .xdpMdPtr => 2
  | .mapPtr _ => 3
  | .packetPtr r | .dataPtr r => 2 + r.rank

theorem rank_le (t : RegType) : t.rank ≤ 6 := by
  cases t with
  | scalar r | packetPtr r | dataPtr r =>
    have := r.rank_le
    simp only [rank]
    omega
  | _ => simp [rank]

theorem sinks_scalar {r r' : Range} (sinks : Sinks Range.rank r r') :
    Sinks rank (.scalar r) (.scalar r') := by
  rcases sinks with rfl | less
  · exact Or.inl rfl
  · exact Or.inr (by simpa [rank] using less)

/-- Every type but `notInit` sinks to an unknown scalar. -/
theorem sinks_scalarTop {t : RegType} (written : t ≠ .notInit) : Sinks rank t (.scalar .top) := by
  cases t with
  | notInit => exact absurd rfl written
  | scalar r =>
    by_cases top : r = .top
    · exact Or.inl (by rw [top])
    · have := Range.rank_pos top
      exact Or.inr (by simpa [rank, Range.rank] using this)
  | packetPtr r | dataPtr r =>
    right
    rw [rank, rank, Range.rank]
    omega
  | _ => exact Or.inr (by simp [rank, Range.rank])

theorem sinks_widen (a b : RegType) : Sinks rank a (a.widen b) := by
  have ranges : ∀ r r', Sinks rank (.packetPtr r) (.packetPtr (Range.widen r r')) ∧
      Sinks rank (.dataPtr r) (.dataPtr (Range.widen r r')) := by
    intro r r'
    rcases Range.sinks_widen r r' with same | less
    · rw [same]
      exact ⟨Or.inl rfl, Or.inl rfl⟩
    · exact ⟨Or.inr (by simpa [rank] using less), Or.inr (by simpa [rank] using less)⟩
  unfold widen
  split
  · exact sinks_scalar (Range.sinks_widen _ _)
  · exact (ranges _ _).1
  · exact (ranges _ _).2
  · rename_i notScalars notPackets notDatas
    by_cases lost : b = .notInit
    · subst lost
      by_cases written : a = .notInit
      · subst written
        exact Or.inl rfl
      · right
        cases a <;> simp_all [join, rank]
    · cases a with
      | notInit => exact Or.inl (by cases b <;> rfl)
      | scalar r =>
        have top : (RegType.scalar r).join b = .scalar .top := by
          cases b <;> simp_all [join]
        exact top ▸ sinks_scalarTop (by simp)
      | packetPtr r =>
        have top : (RegType.packetPtr r).join b = .scalar .top := by
          cases b <;> simp_all [join]
        exact top ▸ sinks_scalarTop (by simp)
      | dataPtr r =>
        have top : (RegType.dataPtr r).join b = .scalar .top := by
          cases b <;> simp_all [join]
        exact top ▸ sinks_scalarTop (by simp)
      | _ =>
        cases b <;> simp only [join] <;> (try split) <;>
          first
            | exact sinks_scalarTop (by simp)
            | exact Or.inl rfl
            | (subst_vars; exact Or.inl rfl)
            | (right; simp [rank])

end RegType

namespace VerifierState

/-- The written bytes of a stack bitmap. -/
def written (s : Bitset 8) : Finset Nat := (Finset.range 512).filter fun k => s.test k = true

def stackRank (s : Bitset 8) : Nat := (written s).card

def rank (s : VerifierState) : Nat := ∑ r : Reg, (s.reg r).rank + stackRank s.stackInit

def maxRank : Nat := 11 * 6 + 512

theorem rank_le (s : VerifierState) : s.rank ≤ maxRank := by
  have regs : ∑ r : Reg, (s.reg r).rank ≤ ∑ _r : Reg, 6 :=
    Finset.sum_le_sum fun r _ => (s.reg r).rank_le
  have stack : stackRank s.stackInit ≤ 512 := by
    have := Finset.card_filter_le (Finset.range 512) fun k => s.stackInit.test k = true
    simpa [stackRank, written] using this
  have total : ∑ _r : Reg, 6 = 11 * 6 := by decide
  unfold rank maxRank
  omega

theorem sinks_inter (a b : Bitset 8) : Sinks stackRank a (a.inter b) := by
  by_cases same : a.inter b = a
  · exact Or.inl same
  · right
    apply Finset.card_lt_card
    refine Finset.ssubset_iff_subset_ne.mpr ⟨?_, ?_⟩
    · intro k
      simp only [written, Finset.mem_filter, Bitset.test_inter, Bool.and_eq_true]
      rintro ⟨inside, left, _⟩
      exact ⟨inside, left⟩
    · intro equal
      refine same (Bitset.ext_test fun k inside => ?_)
      have entry := Finset.ext_iff.mp equal k
      simp only [written, Finset.mem_filter, Finset.mem_range, inside, true_and] at entry
      exact Bool.eq_iff_iff.mpr entry

/-- Widening by an equally configured state sinks. -/
theorem sinks_widenAssign {a b : VerifierState} (same : b.config = a.config) :
    Sinks rank a (a.widenAssign b).1 := by
  have regs : ∀ r, Sinks RegType.rank (a.reg r) ((a.widenAssign b).1.reg r) := by
    intro r
    rw [widenAssign, reg_mergeAssign]
    exact RegType.sinks_widen _ _
  have stack : Sinks stackRank a.stackInit (a.widenAssign b).1.stackInit :=
    sinks_inter _ _
  have config : (a.widenAssign b).1.config = a.config := config_mergeAssign same
  generalize (a.widenAssign b).1 = c at *
  have regsLe : ∀ r ∈ Finset.univ, (c.reg r).rank ≤ (a.reg r).rank := by
    intro r _
    rcases regs r with kept | less
    · rw [kept]
    · exact less.le
  by_cases moved : ∃ r, c.reg r ≠ a.reg r
  · obtain ⟨r, moved⟩ := moved
    have less := Finset.sum_lt_sum regsLe ⟨r, Finset.mem_univ r, (regs r).resolve_left moved⟩
    right
    rcases stack with kept | fewer
    · simp only [rank, kept]
      omega
    · simp only [rank]
      omega
  · have kept : ∀ r, c.reg r = a.reg r := fun r => not_not.mp fun other => moved ⟨r, other⟩
    rcases stack with same | fewer
    · left
      simp only [VerifierState.config, Prod.mk.injEq] at config
      exact ext' kept same config.1 config.2.1 config.2.2
    · right
      simp only [rank, kept]
      omega

end VerifierState

end EbpfLab.Verifier
