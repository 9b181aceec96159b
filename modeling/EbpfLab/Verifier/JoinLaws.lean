import Mathlib.Order.Lattice
import EbpfLab.Verifier.Lattice

/-!
# Laws of joining and widening

Ranges, register types and states are join semilattices in the order of `Lattice`: each join is the
least upper bound of its arguments. The laws of `join`, and the place of `widen` above both its
arguments, are read off the order.
-/

namespace EbpfLab.Verifier
open Isa Library

/-- What a merge point asks of a join and the widening that replaces it at loop headers. -/
structure MergeLaws {α : Type} (join widen : α → α → α) : Prop where
  comm : ∀ a b, join a b = join b a
  assoc : ∀ a b c, join (join a b) c = join a (join b c)
  idem : ∀ a, join a a = a
  left_le_widen : ∀ a b, join a (widen a b) = widen a b
  right_le_widen : ∀ a b, join b (widen a b) = widen a b

theorem MergeLaws.of_sup {α : Type} [SemilatticeSup α] {widen : α → α → α}
    (left : ∀ a b, a ≤ widen a b) (right : ∀ a b, b ≤ widen a b) :
    MergeLaws (fun a b : α => a ⊔ b) widen where
  comm := sup_comm
  assoc := sup_assoc
  idem := sup_idem
  left_le_widen a b := sup_eq_right.mpr (left a b)
  right_le_widen a b := sup_eq_right.mpr (right a b)

/-! ### Ranges -/

namespace Range

theorem le_lower {a b c : Int64} (left : c ≤ a) (right : c ≤ b) : c ≤ lower a b := by
  unfold lower
  split <;> assumption

theorem upper_le {a b c : Int64} (left : a ≤ c) (right : b ≤ c) : upper a b ≤ c := by
  unfold upper
  split <;> assumption

theorem join_le {a b c : Range} (left : a ≤ c) (right : b ≤ c) : a.join b ≤ c := by
  cases a <;> cases b <;> cases c <;> simp_all [join, le_def, Le, le_lower, upper_le]

instance : PartialOrder Range where
  le_antisymm a b below above := by
    cases a <;> cases b <;> simp_all [le_def, Le]
    exact ⟨Int64.le_antisymm above.1 below.1, Int64.le_antisymm below.2 above.2⟩

instance : SemilatticeSup Range where
  sup := join
  le_sup_left := left_le_join
  le_sup_right := right_le_join
  sup_le _ _ _ := join_le

end Range

/-! ### Register types -/

namespace RegType

theorem Le.antisymm {a b : RegType} (below : Le a b) (above : Le b a) : a = b := by
  cases below with
  | notInit =>
    cases above with
    | notInit => rfl
    | scalarTop written => exact absurd rfl written
  | scalarTop written =>
    cases above with
    | notInit => exact absurd rfl written
    | scalarTop _ => rfl
    | scalar up => rw [le_antisymm up (Range.le_top _)]
  | scalar down =>
    cases above with
    | scalarTop _ => rw [le_antisymm down (Range.le_top _)]
    | scalar up => rw [le_antisymm down up]
  | packetPtr down =>
    cases above with
    | packetPtr up => rw [le_antisymm down up]
  | dataPtr down =>
    cases above with
    | dataPtr up => rw [le_antisymm down up]
  | stackPtr _ | mapPtr _ | maybeMapPtr _ | xdpMdPtr => rfl
  | mapPtrMaybe _ => cases above

/-- A join is written exactly when both sides are. -/
theorem join_ne_notInit {a b : RegType} (left : a ≠ .notInit) (right : b ≠ .notInit) :
    a.join b ≠ .notInit := by
  cases a <;> cases b <;> simp_all [join] <;> split <;> simp

theorem join_le {a b c : RegType} (left : a ≤ c) (right : b ≤ c) : a.join b ≤ c := by
  cases left with
  | notInit => exact .notInit _
  | scalarTop written =>
    refine .scalarTop (join_ne_notInit written ?_)
    cases right with
    | scalarTop written' => exact written'
    | scalar _ => exact nofun
  | scalar below =>
    cases right with
    | scalarTop written => exact .scalarTop (join_ne_notInit nofun written)
    | scalar below' => exact .scalar (Range.join_le below below')
  | packetPtr below =>
    cases right with
    | packetPtr below' => exact .packetPtr (Range.join_le below below')
  | dataPtr below =>
    cases right with
    | dataPtr below' => exact .dataPtr (Range.join_le below below')
  | stackPtr _ | mapPtr _ | maybeMapPtr _ | mapPtrMaybe _ | xdpMdPtr =>
    cases right <;> simp only [join, if_true] <;> first | exact .mapPtrMaybe _ | exact Le.refl _

instance : PartialOrder RegType where
  le_antisymm _ _ := Le.antisymm

instance : SemilatticeSup RegType where
  sup := join
  le_sup_left := left_le_join
  le_sup_right := right_le_join
  sup_le _ _ _ := join_le

theorem mergeLaws : MergeLaws join widen := .of_sup left_le_widen right_le_widen

end RegType

/-! ### Configuration -/

theorem MapsLe.antisymm {a b : MapTable} (below : MapsLe a b) (above : MapsLe b a) : a = b := by
  apply List.ext_getElem (Nat.le_antisymm below.1 above.1)
  intro i left right
  apply Option.ext
  intro x
  have down := below.2 i x
  have up := above.2 i x
  simp only [List.getElem?_eq_getElem left, List.getElem?_eq_getElem right, Option.join_some]
    at down up
  exact ⟨up, down⟩

theorem LenLe.antisymm {a b : Option Nat} (below : LenLe a b) (above : LenLe b a) : a = b := by
  rcases below with rfl | same
  · rcases above with rfl | same
    · rfl
    · exact same.symm
  · exact same

namespace VerifierState

theorem joinMaps_le {a b c : MapTable} (left : MapsLe a c) (right : MapsLe b c) :
    MapsLe (joinMaps a b) c := by
  refine ⟨?_, fun i x held => (joinMaps_getElem? a b i x).mpr ⟨left.2 i x held, right.2 i x held⟩⟩
  rw [length_joinMaps]
  have := left.1
  have := right.1
  split <;> assumption

theorem joinLen_le {a b c : Option Nat} (left : LenLe a c) (right : LenLe b c) :
    LenLe (joinLen a b) c := by
  unfold joinLen
  split
  · rename_i degraded
    rcases left with rfl | rfl
    · exact .inl rfl
    · rcases right with rfl | rfl
      · exact .inl rfl
      · exact absurd rfl degraded.1
  · exact left

/-! ### States -/

/-- Merging in place leaves the state the pure merge builds. -/
theorem mergeAssign_fst (merge : RegType → RegType → RegType) (a b : VerifierState) :
    (mergeAssign merge a b).1 = mergeWith merge a b := by
  have len : ∀ x y : Option Nat, joinLen x y = if x = y then x else none := by
    intro x y
    unfold joinLen
    cases x <;> cases y <;> simp
  simp only [mergeAssign, mergeWith, len]

theorem mergeAssign_eq (merge : RegType → RegType → RegType) (a b : VerifierState) :
    mergeAssign merge a b = (mergeWith merge a b, decide (mergeWith merge a b ≠ a)) := by
  apply Prod.ext
  · exact mergeAssign_fst merge a b
  · rw [Bool.eq_iff_iff, mergeAssign_changed, mergeAssign_fst, decide_eq_true_iff]

theorem left_le_mergeWith {merge : RegType → RegType → RegType} (above : ∀ x y, x ≤ merge x y)
    (a b : VerifierState) : a ≤ mergeWith merge a b :=
  mergeAssign_fst merge a b ▸ left_le_mergeAssign above

theorem right_le_mergeWith {merge : RegType → RegType → RegType} (above : ∀ x y, y ≤ merge x y)
    (a b : VerifierState) : b ≤ mergeWith merge a b :=
  mergeAssign_fst merge a b ▸ right_le_mergeAssign above

theorem join_le {a b c : VerifierState} (left : a ≤ c) (right : b ≤ c) : a.join b ≤ c := by
  rw [join, ← mergeAssign_fst]
  refine ⟨fun r => ?_, ?_, joinMaps_le left.maps right.maps,
    joinLen_le left.packetLen right.packetLen, joinLen_le left.dataLen right.dataLen⟩
  · rw [reg_mergeAssign]
    exact RegType.join_le (left.regs r) (right.regs r)
  · calc c.stackInit.inter (a.stackInit.inter b.stackInit)
        = (c.stackInit.inter a.stackInit).inter b.stackInit := (Bitset.inter_assoc _ _ _).symm
      _ = c.stackInit := by rw [left.stack, right.stack]

instance : PartialOrder VerifierState where
  le_antisymm a b below above := by
    apply ext'
    · exact fun r => le_antisymm (below.regs r) (above.regs r)
    · rw [← above.stack, Bitset.inter_comm, below.stack]
    · exact below.maps.antisymm above.maps
    · exact below.packetLen.antisymm above.packetLen
    · exact below.dataLen.antisymm above.dataLen

instance : SemilatticeSup VerifierState where
  sup := join
  le_sup_left := left_le_mergeWith RegType.left_le_join
  le_sup_right := right_le_mergeWith RegType.right_le_join
  sup_le _ _ _ := join_le

theorem mergeLaws : MergeLaws join widen :=
  .of_sup (left_le_mergeWith RegType.left_le_widen) (right_le_mergeWith RegType.right_le_widen)

end VerifierState

/-- Joining and widening obey the merge laws on registers and on whole states, and merging in place
computes the pure merge together with whether it moved the state. -/
theorem join_widen_laws :
    MergeLaws RegType.join RegType.widen ∧ MergeLaws VerifierState.join VerifierState.widen ∧
    ∀ a b : VerifierState,
      a.joinAssign b = (a.join b, decide (a.join b ≠ a)) ∧
      a.widenAssign b = (a.widen b, decide (a.widen b ≠ a)) :=
  ⟨RegType.mergeLaws, VerifierState.mergeLaws, fun a b =>
    ⟨VerifierState.mergeAssign_eq RegType.join a b, VerifierState.mergeAssign_eq RegType.widen a b⟩⟩

end EbpfLab.Verifier
