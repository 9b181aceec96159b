import Mathlib.Order.Basic
import EbpfLab.Verifier.State

/-!
# The order on abstract states

A larger state knows less. Joining and widening both yield a state above their arguments, and the
changed flag of an in-place merge tells exactly whether the state moved.
-/

namespace EbpfLab.Verifier
open Isa Library Interp

/-! ### Ranges -/

namespace Range

def Le : Range → Range → Prop
  | .bottom, _ => True
  | _, .top => True
  | .interval l1 h1, .interval l2 h2 => l2 ≤ l1 ∧ h1 ≤ h2
  | _, _ => False

instance : Preorder Range where
  le := Le
  le_refl r := by cases r <;> simp [Le]
  le_trans a b c := by
    cases a <;> cases b <;> cases c <;> simp only [Le, true_implies, implies_true, false_implies]
    rintro ⟨l, h⟩ ⟨l', h'⟩
    exact ⟨Int64.le_trans l' l, Int64.le_trans h h'⟩

theorem le_def (a b : Range) : a ≤ b ↔ Le a b := Iff.rfl

@[simp] theorem bottom_le (r : Range) : Range.bottom ≤ r := by simp [le_def, Le]

@[simp] theorem le_top (r : Range) : r ≤ Range.top := by cases r <;> simp [le_def, Le]

@[simp] theorem interval_le_interval {l1 h1 l2 h2 : Int64} :
    Range.interval l1 h1 ≤ .interval l2 h2 ↔ l2 ≤ l1 ∧ h1 ≤ h2 := Iff.rfl

theorem lower_le_left (a b : Int64) : lower a b ≤ a := by
  unfold lower
  split
  · exact Int64.le_refl _
  · exact (Int64.le_total a b).resolve_left ‹_›

theorem lower_le_right (a b : Int64) : lower a b ≤ b := by
  unfold lower
  split
  · assumption
  · exact Int64.le_refl _

theorem left_le_upper (a b : Int64) : a ≤ upper a b := by
  unfold upper
  split
  · assumption
  · exact Int64.le_refl _

theorem right_le_upper (a b : Int64) : b ≤ upper a b := by
  unfold upper
  split
  · exact Int64.le_refl _
  · exact (Int64.le_total a b).resolve_left ‹_›

theorem lower_eq_left {a b : Int64} (below : a ≤ b) : lower a b = a := by simp [lower, below]

theorem upper_eq_left {a b : Int64} (above : b ≤ a) : upper a b = a := by
  unfold upper
  split
  · exact Int64.le_antisymm above ‹_›
  · rfl

theorem left_le_join (a b : Range) : a ≤ a.join b := by
  cases a <;> cases b <;> simp [join, lower_le_left, left_le_upper]

theorem right_le_join (a b : Range) : b ≤ a.join b := by
  cases a <;> cases b <;> simp [join, lower_le_right, right_le_upper]

theorem join_eq_left {a b : Range} (below : b ≤ a) : a.join b = a := by
  cases a <;> cases b <;> simp_all [join, le_def, Le, lower_eq_left, upper_eq_left]

/-- The interval `widen` builds from two bounds. -/
theorem le_widened {l h lo hi : Int64} (low : lo ≤ l) (high : h ≤ hi) :
    Range.interval l h ≤
      if lo = Int64.minValue ∧ hi = Int64.maxValue then .top else .interval lo hi := by
  split
  · exact le_top _
  · exact ⟨low, high⟩

theorem left_le_widen (a b : Range) : a ≤ a.widen b := by
  cases a <;> cases b <;> simp only [widen, bottom_le, le_top, le_refl]
  apply le_widened <;> split
  · exact Int64.minValue_le _
  · exact Int64.le_refl _
  · exact Int64.le_maxValue _
  · exact Int64.le_refl _

theorem right_le_widen (a b : Range) : b ≤ a.widen b := by
  cases a <;> cases b <;> simp only [widen, bottom_le, le_top, le_refl]
  apply le_widened <;> split
  · exact Int64.minValue_le _
  · exact Int64.not_lt.mp ‹_›
  · exact Int64.le_maxValue _
  · exact Int64.not_lt.mp ‹_›

end Range

/-! ### Register types -/

namespace RegType

inductive Le : RegType → RegType → Prop where
  | notInit (a) : Le a .notInit
  | scalarTop {a} : a ≠ .notInit → Le a (.scalar .top)
  | scalar {r r'} : r ≤ r' → Le (.scalar r) (.scalar r')
  | stackPtr (offset) : Le (.stackPtr offset) (.stackPtr offset)
  | mapPtr (fd) : Le (.mapPtr fd) (.mapPtr fd)
  | maybeMapPtr (fd) : Le (.maybeMapPtr fd) (.maybeMapPtr fd)
  | mapPtrMaybe (fd) : Le (.mapPtr fd) (.maybeMapPtr fd)
  | xdpMdPtr : Le .xdpMdPtr .xdpMdPtr
  | packetPtr {r r'} : r ≤ r' → Le (.packetPtr r) (.packetPtr r')
  | dataPtr {r r'} : r ≤ r' → Le (.dataPtr r) (.dataPtr r')

theorem Le.refl (a : RegType) : Le a a := by
  cases a with
  | notInit => exact .notInit _
  | scalar r => exact .scalar (le_refl r)
  | stackPtr o => exact .stackPtr o
  | mapPtr f => exact .mapPtr f
  | maybeMapPtr f => exact .maybeMapPtr f
  | xdpMdPtr => exact .xdpMdPtr
  | packetPtr r => exact .packetPtr (le_refl r)
  | dataPtr r => exact .dataPtr (le_refl r)

theorem Le.trans {a b c : RegType} (first : Le a b) (second : Le b c) : Le a c := by
  cases second with
  | notInit => exact .notInit _
  | scalarTop written =>
    refine .scalarTop ?_
    rintro rfl
    cases first with
    | notInit => exact written rfl
    | scalarTop absurdity => exact absurdity rfl
  | scalar below =>
    cases first with
    | scalarTop written =>
      rename_i r'
      cases r' <;> simp_all [Range.le_def, Range.Le]
      exact .scalarTop written
    | scalar below' => exact .scalar (below'.trans below)
  | packetPtr below =>
    cases first with
    | packetPtr below' => exact .packetPtr (below'.trans below)
  | dataPtr below =>
    cases first with
    | dataPtr below' => exact .dataPtr (below'.trans below)
  | mapPtrMaybe fd =>
    cases first
    exact .mapPtrMaybe fd
  | stackPtr _ | mapPtr _ | maybeMapPtr _ | xdpMdPtr => exact first

instance : Preorder RegType where
  le := Le
  le_refl := Le.refl
  le_trans _ _ _ := Le.trans

theorem left_le_join (a b : RegType) : a ≤ a.join b := by
  cases a <;> cases b <;> simp only [join] <;> try split
  all_goals first
    | exact .notInit _
    | exact .scalarTop (by simp)
    | exact .scalar (Range.left_le_join _ _)
    | exact .packetPtr (Range.left_le_join _ _)
    | exact .dataPtr (Range.left_le_join _ _)
    | (subst_vars; exact Le.refl _)
    | (subst_vars; exact .mapPtrMaybe _)

theorem right_le_join (a b : RegType) : b ≤ a.join b := by
  cases a <;> cases b <;> simp only [join] <;> try split
  all_goals first
    | exact .notInit _
    | exact .scalarTop (by simp)
    | exact .scalar (Range.right_le_join _ _)
    | exact .packetPtr (Range.right_le_join _ _)
    | exact .dataPtr (Range.right_le_join _ _)
    | (subst_vars; exact Le.refl _)
    | (subst_vars; exact .mapPtrMaybe _)

theorem join_eq_left {a b : RegType} (below : b ≤ a) : a.join b = a := by
  cases below with
  | notInit _ => cases b <;> rfl
  | scalarTop written => cases b <;> simp_all [join, Range.join_eq_left]
  | scalar below | packetPtr below | dataPtr below => simp [join, Range.join_eq_left below]
  | _ => simp [join]

theorem left_le_widen (a b : RegType) : a ≤ a.widen b := by
  unfold widen
  split
  · exact .scalar (Range.left_le_widen _ _)
  · exact .packetPtr (Range.left_le_widen _ _)
  · exact .dataPtr (Range.left_le_widen _ _)
  · exact left_le_join _ _

theorem right_le_widen (a b : RegType) : b ≤ a.widen b := by
  unfold widen
  split
  · exact .scalar (Range.right_le_widen _ _)
  · exact .packetPtr (Range.right_le_widen _ _)
  · exact .dataPtr (Range.right_le_widen _ _)
  · exact right_le_join _ _

end RegType

/-! ### Configuration -/

/-- The larger table is no shorter and keeps only entries of the smaller. -/
def MapsLe (a b : MapTable) : Prop :=
  a.length ≤ b.length ∧ ∀ (i : Nat) (x : MapDesc), b[i]?.join = some x → a[i]?.join = some x

def LenLe (a b : Option Nat) : Prop := b = none ∨ a = b

theorem LenLe.trans {a b c : Option Nat} (first : LenLe a b) (second : LenLe b c) : LenLe a c := by
  rcases second with rfl | rfl
  · exact Or.inl rfl
  · exact first

namespace VerifierState

theorem length_joinMaps (a b : MapTable) :
    (joinMaps a b).length = if a.length ≤ b.length then b.length else a.length := by
  simp [joinMaps]

theorem joinMaps_getElem? (a b : MapTable) (i : Nat) (x : MapDesc) :
    (joinMaps a b)[i]?.join = some x ↔ a[i]?.join = some x ∧ b[i]?.join = some x := by
  have inside : ∀ {table : MapTable}, table[i]?.join = some x → i < table.length := by
    intro table held
    by_contra outside
    simp [List.getElem?_eq_none (Nat.not_lt.mp outside)] at held
  simp only [joinMaps, List.getElem?_map]
  constructor
  · intro held
    cases read : (List.range (if a.length ≤ b.length then b.length else a.length))[i]? with
    | none => simp [read] at held
    | some j =>
      obtain rfl : i = j := by simpa using (List.getElem?_eq_some_iff.mp read).2
      simp only [read, Option.map_some, Option.join_some] at held
      split at held
      · rename_i y z left right
        split at held
        · rename_i same
          cases held
          exact ⟨left, same ▸ right⟩
        · cases held
      · cases held
  · rintro ⟨left, right⟩
    have lt : i < (if a.length ≤ b.length then b.length else a.length) := by
      have := inside left
      have := inside right
      split <;> omega
    simp [lt, left, right]

theorem left_mapsLe_joinMaps (a b : MapTable) : MapsLe a (joinMaps a b) := by
  refine ⟨?_, fun i x held => ((joinMaps_getElem? a b i x).mp held).1⟩
  rw [length_joinMaps]
  split <;> omega

theorem right_mapsLe_joinMaps (a b : MapTable) : MapsLe b (joinMaps a b) := by
  refine ⟨?_, fun i x held => ((joinMaps_getElem? a b i x).mp held).2⟩
  rw [length_joinMaps]
  split <;> omega

/-- A table is determined by its length and its entries. -/
theorem joinMaps_eq_left {a b : MapTable} (below : MapsLe b a) : joinMaps a b = a := by
  have len : (joinMaps a b).length = a.length := by
    have := below.1
    rw [length_joinMaps]
    split <;> omega
  apply List.ext_getElem len
  intro i left right
  apply Option.ext
  intro x
  have entry := joinMaps_getElem? a b i x
  simp only [List.getElem?_eq_getElem left, List.getElem?_eq_getElem right, Option.join_some]
    at entry
  rw [entry]
  refine ⟨And.left, fun held => ⟨held, below.2 i x ?_⟩⟩
  simp [List.getElem?_eq_getElem right, held]

theorem left_lenLe_joinLen (a b : Option Nat) : LenLe a (joinLen a b) := by
  unfold joinLen LenLe
  split <;> simp

theorem right_lenLe_joinLen (a b : Option Nat) : LenLe b (joinLen a b) := by
  unfold joinLen LenLe
  split
  · exact Or.inl rfl
  · rename_i same
    cases a <;> simp_all

theorem joinLen_eq_left {a b : Option Nat} (below : LenLe b a) : joinLen a b = a := by
  rcases below with rfl | rfl <;> simp [joinLen]

/-! ### States -/

structure Le (a b : VerifierState) : Prop where
  regs : ∀ r, a.reg r ≤ b.reg r
  stack : b.stackInit.inter a.stackInit = b.stackInit
  maps : MapsLe a.maps b.maps
  packetLen : LenLe a.packetLen b.packetLen
  dataLen : LenLe a.dataLen b.dataLen

instance : Preorder VerifierState where
  le := Le
  le_refl _ := ⟨fun _ => le_refl _, Bitset.inter_self _, ⟨Nat.le_refl _, fun _ _ => id⟩,
    Or.inr rfl, Or.inr rfl⟩
  le_trans a b c first second :=
    { regs := fun r => (first.regs r).trans (second.regs r)
      stack := by
        rw [← second.stack, Bitset.inter_assoc, first.stack]
      maps := ⟨Nat.le_trans first.maps.1 second.maps.1, fun i x held =>
        first.maps.2 i x (second.maps.2 i x held)⟩
      packetLen := first.packetLen.trans second.packetLen
      dataLen := first.dataLen.trans second.dataLen }

section merge

variable {merge : RegType → RegType → RegType} {a b : VerifierState}

theorem reg_mergeAssign (r : Reg) :
    (mergeAssign merge a b).1.reg r = merge (a.reg r) (b.reg r) := by
  simp [mergeAssign, reg]

theorem left_le_mergeAssign (above : ∀ x y, x ≤ merge x y) : a ≤ (mergeAssign merge a b).1 := by
  refine ⟨fun r => ?_, Bitset.inter_inter_left _ _, left_mapsLe_joinMaps _ _,
    left_lenLe_joinLen _ _, left_lenLe_joinLen _ _⟩
  rw [reg_mergeAssign]
  exact above _ _

theorem right_le_mergeAssign (above : ∀ x y, y ≤ merge x y) : b ≤ (mergeAssign merge a b).1 := by
  refine ⟨fun r => ?_, Bitset.inter_inter_right _ _, right_mapsLe_joinMaps _ _,
    right_lenLe_joinLen _ _, right_lenLe_joinLen _ _⟩
  rw [reg_mergeAssign]
  exact above _ _

theorem joinLen_ne_left_iff (x y : Option Nat) : joinLen x y ≠ x ↔ x ≠ y ∧ x.isSome = true := by
  unfold joinLen
  split
  · rename_i degraded
    refine ⟨fun _ => degraded, fun _ same => ?_⟩
    rw [← same] at degraded
    exact absurd degraded.2 (by simp)
  · rename_i kept
    exact ⟨fun moved => absurd rfl moved, fun degraded => absurd degraded kept⟩

/-- The changed flag of a merge is accurate. -/
theorem mergeAssign_changed :
    (mergeAssign merge a b).2 = true ↔ (mergeAssign merge a b).1 ≠ a := by
  obtain ⟨regs, stackInit, maps, packetLen, dataLen⟩ := a
  have packet := joinLen_ne_left_iff packetLen b.packetLen
  have data := joinLen_ne_left_iff dataLen b.dataLen
  simp only [mergeAssign, Bool.or_eq_true, Bool.and_eq_true, bne_iff_ne, ne_eq, mk.injEq, not_and_or]
  simp only [← ne_eq, ← packet, ← data]
  grind

end merge

theorem le_of_unchanged {merge : RegType → RegType → RegType} {a b : VerifierState}
    (above : ∀ x y, y ≤ merge x y) (same : (mergeAssign merge a b).2 = false) : b ≤ a := by
  have unmoved : (mergeAssign merge a b).1 = a := by
    by_contra moved
    rw [mergeAssign_changed.mpr moved] at same
    cases same
  exact unmoved ▸ right_le_mergeAssign above

/-- Joining a state that lies below changes nothing. -/
theorem joinAssign_eq_left {a b : VerifierState} (below : b ≤ a) : a.joinAssign b = (a, false) := by
  obtain ⟨regs, stack, maps, packetLen, dataLen⟩ := below
  have same : (a.joinAssign b).1 = a := by
    apply ext'
    · intro r
      rw [joinAssign, reg_mergeAssign]
      exact RegType.join_eq_left (regs r)
    · exact stack
    · exact joinMaps_eq_left maps
    · exact joinLen_eq_left packetLen
    · exact joinLen_eq_left dataLen
  have flag : (a.joinAssign b).2 = false := by
    by_contra raised
    exact mergeAssign_changed.mp (Bool.not_eq_false _ ▸ raised) same
  exact Prod.ext same flag

end VerifierState

end EbpfLab.Verifier
