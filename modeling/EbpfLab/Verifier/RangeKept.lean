import EbpfLab.Isa.Words
import EbpfLab.Library.Bits
import EbpfLab.Library.Residues
import EbpfLab.Verifier.Transfer
import EbpfLab.Verifier.WellFormed

/-!
# Ranges that keep their results

On which ranges the range of a result has every value the interpreter can compute. A range is
computed from bounds alone, so what its members can make of the bits between the bounds decides; the
conditions read the bounds only.
-/

namespace EbpfLab.Verifier
open Isa Library

/-- The range an operation gives its result, truncated at 32 bits. -/
def resultRange (width : Width) (op : AluOp) (lhs rhs : Range) : Range :=
  match width with
  | .b32 => (aluRange op lhs rhs).trunc32
  | .b64 => aluRange op lhs rhs

namespace Range

/-- What a width keeps of a bound. -/
def bound : Width → Int → Int
  | .b64, x => x
  | .b32, x => x % 2 ^ 32

/-- The bounds of a result are out of order, so it is given up. -/
def Crossed (width : Width) (lo hi : Int) : Prop := hi < lo ∨ bound width hi < bound width lo

/-- The low words between two bounds are those between the low words of the bounds, unless these
crossed. -/
def WordKept (l h : Int) : Prop :=
  h % 2 ^ 32 < l % 2 ^ 32 ∨ l / 2 ^ 32 = h / 2 ^ 32 ∨ l % 2 ^ 32 = 0 ∧ h % 2 ^ 32 = 2 ^ 32 - 1

/-- The conjunctions of members lie between those of the bounds. -/
def ConjKept (a b c d : Int) : Width → Prop
  | .b64 => Bit.SignedKept 63 a b c d
  | .b32 => Bit.LowKept 32 a b c d

/-- The members shifted left by any amount of `s` to `s'` lie between two bounds: each amount drops
the digits above a block, and the bounds lie in one block or have all its members between them. -/
def ShiftKept (l h s s' lo hi : Int) : Width → Prop
  | .b64 => ∀ n < 64, s ≤ (n : Nat) ∧ n ≤ s' → Spread (2 ^ (64 - n)) (fun x => 2 ^ n * x - 2 ^ 63)
      (l + 2 ^ (63 - n)) (h + 2 ^ (63 - n)) lo hi
  | .b32 => ∀ n < 64, s ≤ (n : Nat) ∧ n ≤ s' → Spread (2 ^ (32 - n % 32)) (fun x => 2 ^ (n % 32) * x) l h
      (lo % 2 ^ 32) (hi % 2 ^ 32)

/-- The operands' ranges give every result its place in the range of the results. -/
def Keeps (width : Width) (op : AluOp) (r r' : Range) : Prop :=
  match op, r, r' with
  | _, .bottom, _ | _, _, .bottom => True
  | .mov, _, .interval l h => width = .b32 → WordKept l.toInt h.toInt
  | .add, .interval l1 h1, .interval l2 h2 =>
    width = .b32 → fitsI64 (l1.toInt + l2.toInt) = true ∧ fitsI64 (h1.toInt + h2.toInt) = true →
      WordKept (l1.toInt + l2.toInt) (h1.toInt + h2.toInt)
  | .and, .interval l1 h1, .interval l2 h2 =>
    Crossed width (l1 &&& l2).toInt (h1 &&& h2).toInt ∨
      ConjKept l1.toInt h1.toInt l2.toInt h2.toInt width
  | .or, .interval l1 h1, .interval l2 h2 =>
    -- the complement of the conjunction of the complements
    Crossed width (l1 ||| l2).toInt (h1 ||| h2).toInt ∨
      ConjKept (~~~h1).toInt (~~~l1).toInt (~~~h2).toInt (~~~l2).toInt width
  | .lsh, .interval l1 h1, .interval l2 h2 =>
    0 ≤ l1 ∧ 0 ≤ l2 ∧ h2 ≤ 63 → Crossed width (l1 <<< l2).toInt (h1 <<< h2).toInt ∨
      ShiftKept l1.toInt h1.toInt l2.toInt h2.toInt (l1 <<< l2).toInt (h1 <<< h2).toInt width
  | .rsh, .interval l h, .interval s s' =>
    match width with
    -- the shift has no test for crossed bounds
    | .b64 => ¬Straddled (.interval l h) (.interval s s')
    | .b32 => s = s' ∧ 0 ≤ s ∧ s < 64 →
      let lo := (l.toUInt64 >>> s.toUInt64).toInt64.toInt % 2 ^ 32
      let hi := (h.toUInt64 >>> s.toUInt64).toInt64.toInt % 2 ^ 32
      hi < lo ∨ Spread (2 ^ 32) (· / 2 ^ amount32 s) l.toInt h.toInt lo hi
  | _, _, _ => True

instance (width : Width) (lo hi : Int) : Decidable (Crossed width lo hi) :=
  inferInstanceAs (Decidable (_ ∨ _))

instance (l h : Int) : Decidable (WordKept l h) := inferInstanceAs (Decidable (_ ∨ _ ∨ _))

instance (a b c d : Int) : (width : Width) → Decidable (ConjKept a b c d width)
  | .b64 => inferInstanceAs (Decidable (Bit.SignedKept 63 a b c d))
  | .b32 => inferInstanceAs (Decidable (Bit.LowKept 32 a b c d))

/-! ### Results computed from bounds -/

variable {r r' : Range} {v w x lo hi l h l1 h1 l2 h2 s s' : Int64} {width : Width} {op : AluOp}

/-- Every result is in the range of the results. -/
def Sound (width : Width) (op : AluOp) (r r' : Range) : Prop :=
  ∀ v w, r.contains v → r'.contains w → (resultRange width op r r').contains (op.apply v w width)

theorem contains_ordered_iff : (ordered lo hi).contains x ↔
    hi.toInt < lo.toInt ∨ lo.toInt ≤ x.toInt ∧ x.toInt ≤ hi.toInt := by
  unfold ordered
  split
  · rename_i order
    rw [Int64.le_iff_toInt_le] at order
    rw [contains_interval]
    omega
  · rename_i crossed
    rw [Int64.le_iff_toInt_le] at crossed
    exact iff_of_true trivial (Or.inl (by omega))

/-- What the range of a result has, at either width. -/
theorem contains_resultRange_iff (computed : aluRange op r r' = ordered lo hi) :
    (resultRange width op r r').contains x ↔ Crossed width lo.toInt hi.toInt ∨
      bound width lo.toInt ≤ x.toInt ∧ x.toInt ≤ bound width hi.toInt := by
  unfold resultRange Crossed
  rw [computed]
  cases width with
  | b64 =>
    simp only [contains_ordered_iff, bound, or_self]
  | b32 =>
    simp only [bound, or_assoc]
    by_cases order : lo ≤ hi
    · have uncrossed : ¬hi.toInt < lo.toInt := by
        rw [Int64.le_iff_toInt_le] at order
        omega
      rw [ordered, if_pos order, trunc32, contains_ordered_iff, toInt_mask, toInt_mask]
      simp [uncrossed]
    · rw [ordered, if_neg order]
      rw [Int64.le_iff_toInt_le] at order
      exact iff_of_true trivial (Or.inl (by omega))

theorem sound_top (computed : aluRange op r r' = .top) : Sound width op r r' := by
  intro v w _ _
  unfold resultRange
  rw [computed]
  cases width <;> trivial

/-- A result computed from two bounds. -/
theorem sound_iff (computed : aluRange op r r' = ordered lo hi) :
    Sound width op r r' ↔ Crossed width lo.toInt hi.toInt ∨ ∀ v w, r.contains v → r'.contains w →
      bound width lo.toInt ≤ (op.apply v w width).toInt ∧ (op.apply v w width).toInt ≤ bound width hi.toInt := by
  simp only [Sound, contains_resultRange_iff computed]
  by_cases crossed : Crossed width lo.toInt hi.toInt <;> simp [crossed]

/-- The members of an interval, as integers. -/
theorem forall_member {P : Int → Prop} :
    (∀ v : Int64, (interval l h).contains v → P v.toInt) ↔ ∀ x, l.toInt ≤ x ∧ x ≤ h.toInt → P x := by
  simp only [contains_interval]
  refine ⟨fun all x inside => ?_, fun all v => all v.toInt⟩
  have low := toInt_lower l
  have high := toInt_upper h
  have value := toInt_ofInt (x := x) (by omega) (by omega)
  have held := all (Int64.ofInt x)
  rw [value] at held
  exact held inside

theorem forall_members {P : Int → Int → Prop} :
    (∀ v w, (interval l1 h1).contains v → (interval l2 h2).contains w → P v.toInt w.toInt) ↔
      ∀ x y, l1.toInt ≤ x ∧ x ≤ h1.toInt → l2.toInt ≤ y ∧ y ≤ h2.toInt → P x y := by
  constructor
  · intro all x y inside
    refine (forall_member (P := P x)).mp (fun w inside' => ?_) y
    exact (forall_member (P := fun x => P x w.toInt)).mp (fun v held => all v w held inside') x inside
  · intro all v w inside inside'
    exact all _ _ (contains_interval.mp inside) (contains_interval.mp inside')

theorem exists_member (held : r.WellFormed) (nonempty : r ≠ .bottom) : ∃ v, r.contains v := by
  cases r with
  | bottom => exact absurd rfl nonempty
  | top => exact ⟨0, trivial⟩
  | interval l h => exact ⟨l, Int64.le_refl l, held⟩

/-! ### Moves and additions -/

/-- The low words between two integers are those between their low words. -/
theorem wordKept_iff {l h : Int} (order : l ≤ h) :
    h % 2 ^ 32 < l % 2 ^ 32 ∨ (∀ x, l ≤ x ∧ x ≤ h → l % 2 ^ 32 ≤ x % 2 ^ 32 ∧ x % 2 ^ 32 ≤ h % 2 ^ 32) ↔
      WordKept l h := by
  have mono : ∀ x y : Int, x ≤ y → id x ≤ id y := fun _ _ below => below
  rw [WordKept, ← spread_ends (by decide), ← spread_iff mono (by decide) order]
  simp only [id, and_imp]

theorem sound_mov_iff (left : r.WellFormed) (nonempty : r ≠ .bottom) (order : l.toInt ≤ h.toInt) :
    Sound width .mov r (.interval l h) ↔ (width = .b32 → WordKept l.toInt h.toInt) := by
  cases width with
  | b64 => exact iff_of_true (fun _ _ _ right => right) nofun
  | b32 =>
    obtain ⟨v, member⟩ := exists_member left nonempty
    have computed : aluRange .mov r (.interval l h) = ordered l h :=
      (if_pos (Int64.le_iff_toInt_le.mpr order)).symm
    rw [sound_iff computed, ← wordKept_iff order, ← forall_member]
    simp only [Crossed, bound, toInt_mov32, Int.not_lt.mpr order, false_or, true_imp_iff]
    exact or_congr_right ⟨fun all w => all v w member, fun all _ w _ => all w⟩

/-- An addition whose bounds are both representable. -/
theorem add_interval (left : l1.toInt ≤ h1.toInt) (right : l2.toInt ≤ h2.toInt)
    (low : fitsI64 (l1.toInt + l2.toInt) = true) (high : fitsI64 (h1.toInt + h2.toInt) = true) :
    aluRange .add (interval l1 h1) (.interval l2 h2) = ordered (l1 + l2) (h1 + h2) ∧
      (l1 + l2).toInt = l1.toInt + l2.toInt ∧ (h1 + h2).toInt = h1.toInt + h2.toInt := by
  have bounds := low
  have bounds' := high
  simp only [fitsI64, Bool.and_eq_true, decide_eq_true_eq] at bounds bounds'
  have lower := toInt_add bounds.1 bounds.2
  have upper := toInt_add bounds'.1 bounds'.2
  have order : l1 + l2 ≤ h1 + h2 := by
    rw [Int64.le_iff_toInt_le, lower, upper]
    omega
  have exact_add : ∀ a b : Int64, Int64.ofInt (a.toInt + b.toInt) = a + b := by
    intro a b
    rw [Int64.ofInt_add]
    simp
  refine ⟨?_, lower, upper⟩
  simp only [aluRange, ordered, if_pos order, add, lift, checkedAdd, checkedI64, low, high, if_true,
    checked, exact_add]

theorem add_top (overflows : ¬(fitsI64 (l1.toInt + l2.toInt) = true ∧ fitsI64 (h1.toInt + h2.toInt) = true)) :
    aluRange .add (interval l1 h1) (.interval l2 h2) = .top := by
  simp only [aluRange, add, lift, checkedAdd, checkedI64]
  by_cases low : fitsI64 (l1.toInt + l2.toInt) = true
  · by_cases high : fitsI64 (h1.toInt + h2.toInt) = true
    · exact absurd ⟨low, high⟩ overflows
    · simp [checked, high]
  · simp [checked, low]

/-- The sums of the members of two intervals are the members of the interval of the sums. -/
theorem forall_sum {a b c d : Int} {P : Int → Prop} (left : a ≤ b) (right : c ≤ d) :
    (∀ v w, a ≤ v ∧ v ≤ b → c ≤ w ∧ w ≤ d → P (v + w)) ↔ ∀ x, a + c ≤ x ∧ x ≤ b + d → P x := by
  refine ⟨fun all x inside => ?_, fun all v w inside inside' => all _ ⟨by omega, by omega⟩⟩
  have sum := all (max a (x - d)) (x - max a (x - d)) ⟨by omega, by omega⟩ ⟨by omega, by omega⟩
  rwa [show max a (x - d) + (x - max a (x - d)) = x by omega] at sum

theorem sound_add_iff (left : l1.toInt ≤ h1.toInt) (right : l2.toInt ≤ h2.toInt) :
    Sound width .add (.interval l1 h1) (.interval l2 h2) ↔
      (width = .b32 → fitsI64 (l1.toInt + l2.toInt) = true ∧ fitsI64 (h1.toInt + h2.toInt) = true →
        WordKept (l1.toInt + l2.toInt) (h1.toInt + h2.toInt)) := by
  cases width with
  | b64 => exact iff_of_true (fun _ _ inside inside' => contains_add inside inside') nofun
  | b32 =>
    by_cases fits : fitsI64 (l1.toInt + l2.toInt) = true ∧ fitsI64 (h1.toInt + h2.toInt) = true
    · obtain ⟨computed, lower, upper⟩ := add_interval left right fits.1 fits.2
      have order : ¬h1.toInt + h2.toInt < l1.toInt + l2.toInt := by omega
      rw [sound_iff computed, ← wordKept_iff (by omega), ← forall_sum left right]
      simp only [Crossed, bound, toInt_add32, lower, upper, order, false_or, fits, and_self, true_imp_iff]
      exact or_congr_right (forall_members (P := fun x y => (l1.toInt + l2.toInt) % 2 ^ 32 ≤ (x + y) % 2 ^ 32 ∧
        (x + y) % 2 ^ 32 ≤ (h1.toInt + h2.toInt) % 2 ^ 32))
    · exact iff_of_true (sound_top (add_top fits)) fun _ passes => absurd passes fits

/-! ### Conjunctions and disjunctions -/

theorem bit_iff {j : Nat} (below : j < 64) (v : Int64) : Bit v.toInt j ↔ v.toUInt64.toNat.testBit j = true := by
  rw [← Bit.emod_iff below, ← toNat_emod, Nat.testBit_eq_decide_div_mod_eq, decide_eq_true_iff, Bit]
  norm_cast

theorem bit_and {j : Nat} (below : j < 64) (v w : Int64) :
    Bit (v &&& w).toInt j ↔ Bit v.toInt j ∧ Bit w.toInt j := by
  rw [bit_iff below, bit_iff below, bit_iff below, show (v &&& w).toUInt64 = v.toUInt64 &&& w.toUInt64 from rfl,
    UInt64.toNat_and, Nat.testBit_and, Bool.and_eq_true]

theorem neg_iff_bit (v : Int64) : v.toInt < 0 ↔ Bit v.toInt 63 := by
  have low := toInt_lower v
  have high := toInt_upper v
  rw [Bit, Bit.quotient (by omega) (by omega)]
  split <;> omega

/-- The conjunction of two integers as words. -/
def meetWord (x y : Int) : Int := (Int64.ofInt x &&& Int64.ofInt y).toInt

theorem meetWord_toInt (v w : Int64) : meetWord v.toInt w.toInt = (v &&& w).toInt := by
  rw [meetWord, Int64.ofInt_toInt, Int64.ofInt_toInt]

theorem bit_meetWord {n : Nat} (small : n ≤ 64) (x y : Int) :
    ∀ i < n, Bit (meetWord x y) i ↔ Bit x i ∧ Bit y i := by
  intro i below
  have wraps : ∀ z : Int, (Int64.ofInt z).toInt % 2 ^ 64 = z % 2 ^ 64 := by
    intro z
    rw [Int64.toInt_ofInt]
    exact Int.bmod_emod
  rw [meetWord, bit_and (by omega), Bit.emod_congr (wraps x) (by omega), Bit.emod_congr (wraps y) (by omega)]

/-- The conjunctions of the members of two intervals keep between those of the bounds. -/
theorem conjKept_iff (left : l1.toInt ≤ h1.toInt) (right : l2.toInt ≤ h2.toInt) :
    (∀ v w, (interval l1 h1).contains v → (interval l2 h2).contains w →
      bound width (l1 &&& l2).toInt ≤ bound width (v &&& w).toInt ∧
        bound width (v &&& w).toInt ≤ bound width (h1 &&& h2).toInt) ↔
      ConjKept l1.toInt h1.toInt l2.toInt h2.toInt width := by
  simp only [← meetWord_toInt]
  cases width with
  | b64 =>
    have signed : ∀ v w : Int64, meetWord v.toInt w.toInt < 0 ↔ v.toInt < 0 ∧ w.toInt < 0 := by
      intro v w
      rw [meetWord_toInt, neg_iff_bit, neg_iff_bit, neg_iff_bit, bit_and (by decide)]
    have lower := toInt_lower l1
    have lower' := toInt_lower l2
    have upper := toInt_upper h1
    have upper' := toInt_upper h2
    refine Iff.trans ?_ (Bit.signed_kept_iff (bit_meetWord (by decide))
      (fun x y => ⟨toInt_lower _, toInt_upper _⟩) (forall_members.mp fun v w _ _ => signed v w) left right
      lower upper lower' upper')
    exact forall_members (P := fun x y => meetWord l1.toInt l2.toInt ≤ meetWord x y ∧
      meetWord x y ≤ meetWord h1.toInt h2.toInt)
  | b32 =>
    refine Iff.trans ?_ (Bit.low_kept_iff (bit_meetWord (by decide)) left right)
    exact forall_members (P := fun x y => meetWord l1.toInt l2.toInt % 2 ^ 32 ≤ meetWord x y % 2 ^ 32 ∧
      meetWord x y % 2 ^ 32 ≤ meetWord h1.toInt h2.toInt % 2 ^ 32)

theorem toInt_and (v w : Int64) : (AluOp.apply .and v w width).toInt = bound width (v &&& w).toInt := by
  cases width with
  | b64 => rfl
  | b32 => exact toInt_and32 v w

theorem toInt_or (v w : Int64) : (AluOp.apply .or v w width).toInt = bound width (v ||| w).toInt := by
  cases width with
  | b64 => rfl
  | b32 => exact toInt_or32 v w

theorem sound_and_iff (left : l1.toInt ≤ h1.toInt) (right : l2.toInt ≤ h2.toInt) :
    Sound width .and (.interval l1 h1) (.interval l2 h2) ↔ Crossed width (l1 &&& l2).toInt (h1 &&& h2).toInt ∨
      ConjKept l1.toInt h1.toInt l2.toInt h2.toInt width := by
  have computed : aluRange .and (.interval l1 h1) (.interval l2 h2) = ordered (l1 &&& l2) (h1 &&& h2) := rfl
  rw [sound_iff computed, ← conjKept_iff left right]
  simp only [toInt_and]

/-- What a width keeps of a complement. -/
theorem bound_not (v w : Int64) : bound width (~~~v).toInt ≤ bound width (~~~w).toInt ↔
    bound width w.toInt ≤ bound width v.toInt := by
  cases width <;> simp only [bound, toInt_not] <;> omega

theorem contains_not : (interval (~~~h) (~~~l)).contains (~~~v) ↔ (interval l h).contains v := by
  simp only [contains_interval, toInt_not]
  omega

theorem sound_or_iff (left : l1.toInt ≤ h1.toInt) (right : l2.toInt ≤ h2.toInt) :
    Sound width .or (.interval l1 h1) (.interval l2 h2) ↔ Crossed width (l1 ||| l2).toInt (h1 ||| h2).toInt ∨
      ConjKept (~~~h1).toInt (~~~l1).toInt (~~~h2).toInt (~~~l2).toInt width := by
  have computed : aluRange .or (.interval l1 h1) (.interval l2 h2) = ordered (l1 ||| l2) (h1 ||| h2) := rfl
  rw [sound_iff computed, ← conjKept_iff (by simp only [toInt_not]; omega) (by simp only [toInt_not]; omega)]
  refine or_congr_right ⟨fun all v w inside inside' => ?_, fun all v w inside inside' => ?_⟩
  · have between := all (~~~v) (~~~w) (contains_not.mp (by rwa [Int64.not_not]))
      (contains_not.mp (by rwa [Int64.not_not]))
    rw [toInt_or, or_eq_not, or_eq_not, or_eq_not, bound_not, bound_not, Int64.not_not, Int64.not_not] at between
    exact between.symm
  · have between := all (~~~v) (~~~w) (contains_not.mpr inside) (contains_not.mpr inside')
    rw [toInt_or, or_eq_not, or_eq_not, or_eq_not, bound_not, bound_not]
    exact between.symm

/-! ### Shifts -/

/-- A left shift as a number: the members of a block, spread over the places of a word. -/
def shifted (n : Nat) (x : Int) : Width → Int
  | .b64 => 2 ^ n * ((x + 2 ^ (63 - n)) % 2 ^ (64 - n)) - 2 ^ 63
  | .b32 => 2 ^ (n % 32) * (x % 2 ^ (32 - n % 32))

theorem two_pow_split {n m : Nat} (below : n ≤ m) : (2 : Int) ^ m = 2 ^ n * 2 ^ (m - n) := by
  rw [← Int.pow_add]
  congr 1
  omega

theorem bmod_eq (x : Int) : x.bmod (2 ^ 64) = (x + 2 ^ 63) % 2 ^ 64 - 2 ^ 63 := by
  unfold Int.bmod
  dsimp only
  split <;> omega

theorem toInt_lsh (low : 0 ≤ w.toInt) (high : w.toInt ≤ 63) (v : Int64) :
    (AluOp.apply .lsh v w width).toInt = shifted w.toInt.toNat v.toInt width := by
  cases width with
  | b64 =>
    have below : w.toInt.toNat ≤ 63 := by omega
    rw [toInt_lsh64 low high, bmod_eq, shifted]
    generalize w.toInt.toNat = n at below
    rw [show v.toInt * 2 ^ n + 2 ^ 63 = 2 ^ n * (v.toInt + 2 ^ (63 - n)) by
        rw [Int.mul_add, ← two_pow_split below, Int.mul_comm],
      two_pow_split (show n ≤ 64 by omega), Int.mul_emod_mul_of_pos _ _ (Bit.two_pow_pos n)]
  | b32 =>
    have amount : amount32 w = w.toInt.toNat % 32 := by
      unfold amount32
      omega
    rw [toInt_lsh32, amount, shifted]
    generalize w.toInt.toNat = n
    rw [Int.mul_comm, two_pow_split (show n % 32 ≤ 32 by omega), Int.mul_emod_mul_of_pos _ _ (Bit.two_pow_pos _)]

/-- The shifted members of an interval lie between two bounds. -/
theorem spread_shifted_iff {n : Nat} {l h lo hi : Int} (order : l ≤ h) :
    (∀ x, l ≤ x ∧ x ≤ h → bound width lo ≤ shifted n x width ∧ shifted n x width ≤ bound width hi) ↔
      match width with
      | .b64 => Spread (2 ^ (64 - n)) (fun x => 2 ^ n * x - 2 ^ 63) (l + 2 ^ (63 - n)) (h + 2 ^ (63 - n)) lo hi
      | .b32 => Spread (2 ^ (32 - n % 32)) (fun x => 2 ^ (n % 32) * x) l h (lo % 2 ^ 32) (hi % 2 ^ 32) := by
  cases width with
  | b64 =>
    rw [← spread_iff ?_ (Bit.two_pow_pos _) (by omega)]
    · constructor
      · intro all x lower upper
        have held := all (x - 2 ^ (63 - n)) (by omega)
        rwa [shifted, Int.sub_add_cancel] at held
      · intro all x inside
        exact all _ (by omega) (by omega)
    · intro x y below
      exact Int.sub_le_sub_right (Int.mul_le_mul_of_nonneg_left below (Bit.two_pow_pos n).le) _
  | b32 =>
    rw [← spread_iff ?_ (Bit.two_pow_pos _) order]
    · simp only [and_imp]
      rfl
    · exact fun x y below => Int.mul_le_mul_of_nonneg_left below (Bit.two_pow_pos _).le

theorem shiftKept_iff {lo hi : Int} (order : l1.toInt ≤ h1.toInt) (positive : 0 ≤ l2.toInt)
    (small : h2.toInt ≤ 63) :
    (∀ v w, (interval l1 h1).contains v → (interval l2 h2).contains w →
      bound width lo ≤ (AluOp.apply .lsh v w width).toInt ∧ (AluOp.apply .lsh v w width).toInt ≤ bound width hi) ↔
      ShiftKept l1.toInt h1.toInt l2.toInt h2.toInt lo hi width := by
  have amounts : (∀ v w, (interval l1 h1).contains v → (interval l2 h2).contains w →
      bound width lo ≤ (AluOp.apply .lsh v w width).toInt ∧ (AluOp.apply .lsh v w width).toInt ≤ bound width hi) ↔
      ∀ n < 64, l2.toInt ≤ (n : Nat) ∧ n ≤ h2.toInt → ∀ x, l1.toInt ≤ x ∧ x ≤ h1.toInt →
        bound width lo ≤ shifted n x width ∧ shifted n x width ≤ bound width hi := by
    constructor
    · intro all n below inside' x inside
      have held := (forall_members (P := fun x y => bound width lo ≤ shifted y.toNat x width ∧
        shifted y.toNat x width ≤ bound width hi)).mp (fun v w member member' => ?_) x n inside inside'
      · exact held
      · have amount := contains_interval.mp member'
        rw [← toInt_lsh (by omega) (by omega)]
        exact all v w member member'
    · intro all v w member member'
      have amount := contains_interval.mp member'
      rw [toInt_lsh (by omega) (by omega)]
      exact all w.toInt.toNat (by omega) (by omega) _ (contains_interval.mp member)
  rw [amounts]
  cases width <;> simp only [spread_shifted_iff order, ShiftKept]

theorem shiftAmount_eq (nonneg : 0 ≤ s.toInt) (small : s.toInt ≤ 63) (v : Int64) :
    ∃ n, shiftAmount s = some n ∧ shlOrMax v n = v <<< s := by
  refine ⟨s.toInt.toNat, ?_, ?_⟩
  · unfold shiftAmount
    rw [if_pos ⟨nonneg, by omega⟩]
  · unfold shlOrMax
    rw [if_pos (by omega)]
    congr 1
    rw [← Int64.toInt_inj, Int64.toInt_ofNat_of_lt (by omega)]
    omega

/-- The interval of a left shift whose bounds pass the guard. -/
theorem shl_interval (left : l1 ≤ h1) (right : l2 ≤ h2) (nonneg : 0 ≤ l1) (positive : 0 ≤ l2) (small : h2 ≤ 63) :
    aluRange .lsh (interval l1 h1) (.interval l2 h2) = ordered (l1 <<< l2) (h1 <<< h2) := by
  have upper := Int64.le_trans nonneg left
  have guarded : l1 ≥ 0 ∧ h1 ≥ 0 ∧ l2 ≥ 0 ∧ h2 ≤ 63 := ⟨nonneg, upper, positive, small⟩
  simp only [Int64.le_iff_toInt_le, show (0 : Int64).toInt = 0 from rfl,
    show (63 : Int64).toInt = 63 from rfl] at right positive small
  obtain ⟨n, amount, shifted⟩ := shiftAmount_eq positive (by omega) l1
  obtain ⟨m, amount', shifted'⟩ := shiftAmount_eq (by omega : 0 ≤ h2.toInt) small h1
  simp only [aluRange, shl, lift, if_pos guarded, amount, amount', shifted, shifted']

theorem sound_lsh_iff (left : l1.toInt ≤ h1.toInt) (right : l2.toInt ≤ h2.toInt) :
    Sound width .lsh (.interval l1 h1) (.interval l2 h2) ↔ (0 ≤ l1 ∧ 0 ≤ l2 ∧ h2 ≤ 63 →
      Crossed width (l1 <<< l2).toInt (h1 <<< h2).toInt ∨
        ShiftKept l1.toInt h1.toInt l2.toInt h2.toInt (l1 <<< l2).toInt (h1 <<< h2).toInt width) := by
  by_cases guarded : 0 ≤ l1 ∧ 0 ≤ l2 ∧ h2 ≤ 63
  · have computed := shl_interval (Int64.le_iff_toInt_le.mpr left) (Int64.le_iff_toInt_le.mpr right)
      guarded.1 guarded.2.1 guarded.2.2
    have positive := Int64.le_iff_toInt_le.mp guarded.2.1
    have small := Int64.le_iff_toInt_le.mp guarded.2.2
    rw [sound_iff computed, ← shiftKept_iff left positive small]
    simp only [guarded, and_self, true_imp_iff]
  · refine iff_of_true (sound_top (if_neg ?_)) fun passed => absurd passed guarded
    exact fun passed => guarded ⟨passed.1, passed.2.2⟩

/-- Shifting an interval right by a constant keeps a value unless the interval straddles zero. -/
theorem contains_shr_iff (held : l.toInt ≤ v.toInt ∧ v.toInt ≤ h.toInt) (nonneg : 0 ≤ s.toInt)
    (small : s.toInt < 64) :
    (interval (l.toUInt64 >>> s.toUInt64).toInt64 (h.toUInt64 >>> s.toUInt64).toInt64).contains
      (v.toUInt64 >>> s.toUInt64).toInt64 ↔ ¬(0 < s.toInt ∧ l.toInt < 0 ∧ 0 ≤ h.toInt) := by
  rcases Int.lt_or_eq_of_le nonneg with positive | zero
  · rw [contains_interval, shiftRight_le_iff positive small held.1,
      shiftRight_le_iff positive small held.2]
    omega
  · obtain rfl : s = 0 := by rw [← Int64.toInt_inj, ← zero]; rfl
    simpa [show Int64.toUInt64 0 = 0 from rfl] using held

theorem apply_rsh_eq (v w : Int64) :
    AluOp.apply .rsh v w .b64 = (v.toUInt64 >>> w.toUInt64).toInt64 := by
  show (v.toUInt64 >>> (w.toUInt64 &&& 63)).toInt64 = _
  congr 1
  rw [← UInt64.toNat_inj, UInt64.toNat_shiftRight, UInt64.toNat_shiftRight, UInt64.toNat_and,
    show (63 : UInt64).toNat = 2 ^ 6 - 1 from rfl, Nat.and_two_pow_sub_one_eq_mod, Nat.mod_mod]

theorem sound_rsh64_iff (left : l.toInt ≤ h.toInt) (right : s.toInt ≤ s'.toInt) :
    Sound .b64 .rsh (.interval l h) (.interval s s') ↔ ¬Straddled (.interval l h) (.interval s s') := by
  by_cases constant : s = s' ∧ 0 ≤ s ∧ s < 64
  · have computed : aluRange .rsh (.interval l h) (.interval s s') =
        .interval (l.toUInt64 >>> s.toUInt64).toInt64 (h.toUInt64 >>> s.toUInt64).toInt64 := if_pos constant
    obtain ⟨rfl, nonneg, small⟩ := constant
    have each : ∀ v, (interval l h).contains v → ((resultRange .b64 .rsh (.interval l h) (.interval s s)).contains
        (AluOp.apply .rsh v s .b64) ↔ ¬Straddled (.interval l h) (.interval s s)) := by
      intro v held
      rw [contains_interval] at held
      simp only [resultRange, computed, Straddled, apply_rsh_eq]
      rw [contains_shr_iff held (Int64.le_iff_toInt_le.mp nonneg) (Int64.lt_iff_toInt_lt.mp small)]
      simp [small, Int64.lt_iff_toInt_lt, Int64.le_iff_toInt_le]
    constructor
    · intro sound
      have first : (interval l h).contains l := ⟨Int64.le_refl l, Int64.le_iff_toInt_le.mpr left⟩
      exact (each l first).mp (sound l s first (contains_exact.mpr rfl))
    · intro apart v w held held'
      obtain rfl := contains_exact.mp held'
      exact (each v held).mpr apart
  · exact iff_of_true (sound_top (if_neg constant)) fun straddled =>
      constant ⟨straddled.1, Int64.le_of_lt straddled.2.1, straddled.2.2.1⟩

theorem sound_rsh32_iff (left : l.toInt ≤ h.toInt) (right : s.toInt ≤ s'.toInt) :
    Sound .b32 .rsh (.interval l h) (.interval s s') ↔ (s = s' ∧ 0 ≤ s ∧ s < 64 →
      let lo := (l.toUInt64 >>> s.toUInt64).toInt64.toInt % 2 ^ 32
      let hi := (h.toUInt64 >>> s.toUInt64).toInt64.toInt % 2 ^ 32
      hi < lo ∨ Spread (2 ^ 32) (· / 2 ^ amount32 s) l.toInt h.toInt lo hi) := by
  by_cases constant : s = s' ∧ 0 ≤ s ∧ s < 64
  · have computed : aluRange .rsh (.interval l h) (.interval s s') =
        .interval (l.toUInt64 >>> s.toUInt64).toInt64 (h.toUInt64 >>> s.toUInt64).toInt64 := if_pos constant
    obtain ⟨rfl, nonneg, small⟩ := constant
    have mono : ∀ x y : Int, x ≤ y → x / 2 ^ amount32 s ≤ y / 2 ^ amount32 s := fun x y below =>
      Int.ediv_le_ediv (Bit.two_pow_pos _) below
    simp only [Sound, resultRange, computed, trunc32, contains_ordered_iff, toInt_mask,
      ← spread_iff mono (show (0 : Int) < 2 ^ 32 by decide) left, nonneg, small, and_self, true_imp_iff]
    generalize (l.toUInt64 >>> s.toUInt64).toInt64.toInt % 2 ^ 32 = lo
    generalize (h.toUInt64 >>> s.toUInt64).toInt64.toInt % 2 ^ 32 = hi
    by_cases crossed : hi < lo
    · simp only [crossed, true_or, implies_true]
    · simp only [crossed, false_or]
      constructor
      · intro all x lower upper
        refine (forall_member (P := fun x => lo ≤ x % 2 ^ 32 / 2 ^ amount32 s ∧
          x % 2 ^ 32 / 2 ^ amount32 s ≤ hi)).mp (fun v held => ?_) x ⟨lower, upper⟩
        rw [← toInt_rsh32]
        exact all v s held (contains_exact.mpr rfl)
      · intro all v w held held'
        obtain rfl := contains_exact.mp held'
        rw [contains_interval] at held
        rw [toInt_rsh32]
        exact all _ held.1 held.2
  · exact iff_of_true (sound_top (if_neg constant)) fun passed => absurd passed constant

/-! ### All operations -/

theorem sound_bottom (empty : r = .bottom ∨ r' = .bottom) : Sound width op r r' := by
  rcases empty with rfl | rfl
  · exact fun v _ left => absurd left (not_contains_bottom v)
  · exact fun _ w _ right => absurd right (not_contains_bottom w)

theorem lift_top {f : Int64 → Int64 → Int64 → Int64 → Range} (left : r ≠ .bottom) (right : r' ≠ .bottom)
    (unknown : r = .top ∨ r' = .top) : lift f r r' = .top := by
  rcases unknown with rfl | rfl
  · cases r' <;> first | rfl | exact absurd rfl right
  · cases r <;> first | rfl | exact absurd rfl left

theorem lift_const_top (left : r ≠ .bottom) (right : r' ≠ .bottom) : lift (fun _ _ _ _ => .top) r r' = .top := by
  cases r with
  | bottom => exact absurd rfl left
  | top => exact lift_top left right (Or.inl rfl)
  | interval l h => cases r' <;> first | rfl | exact absurd rfl right

/-- Nothing is computed from an unknown operand, unless it is the one a move drops. -/
theorem keeps_top (moves : op ≠ .mov) (r : Range) : Keeps width op .top r ∧ Keeps width op r .top := by
  cases op <;> first | exact absurd rfl moves | (cases r <;> exact ⟨trivial, trivial⟩)

/-- An operation computed from the bounds of two intervals. -/
theorem sound_lift_iff {f : Int64 → Int64 → Int64 → Int64 → Range}
    (computed : ∀ r r', aluRange op r r' = lift f r r')
    (left : r.WellFormed) (right : r'.WellFormed) (nonempty : r ≠ .bottom) (nonempty' : r' ≠ .bottom)
    (moves : op ≠ .mov)
    (bounds : ∀ l1 h1 l2 h2, l1.toInt ≤ h1.toInt → l2.toInt ≤ h2.toInt →
      (Sound width op (.interval l1 h1) (.interval l2 h2) ↔ Keeps width op (.interval l1 h1) (.interval l2 h2))) :
    Sound width op r r' ↔ Keeps width op r r' := by
  have unknown : r = .top ∨ r' = .top → Sound width op r r' :=
    fun top => sound_top ((computed r r').trans (lift_top nonempty nonempty' top))
  cases r with
  | bottom => exact absurd rfl nonempty
  | top => exact iff_of_true (unknown (Or.inl rfl)) (keeps_top moves r').1
  | interval l1 h1 =>
    cases r' with
    | bottom => exact absurd rfl nonempty'
    | top => exact iff_of_true (unknown (Or.inr rfl)) (keeps_top moves _).2
    | interval l2 h2 => exact bounds l1 h1 l2 h2 (wellFormed_interval.mp left) (wellFormed_interval.mp right)

/-- The range of the results has every result exactly on the ranges that keep them. -/
theorem sound_iff_keeps (left : r.WellFormed) (right : r'.WellFormed) :
    Sound width op r r' ↔ Keeps width op r r' := by
  by_cases empty : r = .bottom ∨ r' = .bottom
  · refine iff_of_true (sound_bottom empty) ?_
    rcases empty with rfl | rfl
    · cases op <;> trivial
    · cases r <;> cases op <;> trivial
  · rw [not_or] at empty
    obtain ⟨nonempty, nonempty'⟩ := empty
    cases op with
    | add => exact sound_lift_iff (fun _ _ => rfl) left right nonempty nonempty' nofun fun _ _ _ _ => sound_add_iff
    | and => exact sound_lift_iff (fun _ _ => rfl) left right nonempty nonempty' nofun fun _ _ _ _ => sound_and_iff
    | or => exact sound_lift_iff (fun _ _ => rfl) left right nonempty nonempty' nofun fun _ _ _ _ => sound_or_iff
    | lsh => exact sound_lift_iff (fun _ _ => rfl) left right nonempty nonempty' nofun fun _ _ _ _ => sound_lsh_iff
    | rsh =>
      refine sound_lift_iff (fun _ _ => rfl) left right nonempty nonempty' nofun fun _ _ _ _ left right => ?_
      cases width with
      | b64 => exact sound_rsh64_iff left right
      | b32 => exact sound_rsh32_iff left right
    | mov =>
      cases r' with
      | bottom => exact absurd rfl nonempty'
      | top => exact iff_of_true (sound_top rfl) (by cases r <;> trivial)
      | interval l h =>
        refine (sound_mov_iff left nonempty (wellFormed_interval.mp right)).trans ?_
        cases r with
        | bottom => exact absurd rfl nonempty
        | _ => exact Iff.rfl
    | xor | arsh =>
      exact iff_of_true (sound_top (lift_const_top nonempty nonempty')) (by cases r <;> cases r' <;> trivial)
    | _ => exact iff_of_true (sound_top rfl) (by cases r <;> cases r' <;> trivial)

end Range
end EbpfLab.Verifier
