import Mathlib.Tactic.Linarith
import Mathlib.Tactic.Ring

/-!
# Walks around a ring

A ring has the places `0` to `size - 1`. A walk makes steps of one length, around the end of the ring
where it must, until it stands at the edge or past it.
-/

namespace EbpfLab.Library

variable {size pace edge x low high : Int} {n : Nat}

/-- A walk from a place stands at the edge or past it after at most `n` steps. -/
def Arrives (size pace edge : Int) (n : Nat) (x : Int) : Prop :=
  ∃ k : Nat, k ≤ n ∧ edge ≤ (x + k * pace) % size

/-- The steps to the edge, if the ring had no end. -/
def stepsTo (pace edge x : Int) : Int := (edge - x + pace - 1) / pace

/-- The first place at the edge or past it is on the ring. -/
def Lands (size pace edge x : Int) : Prop := edge + (x - edge) % pace < size

theorem stepsTo_mul (positive : 0 < pace) : x + stepsTo pace edge x * pace = edge + (x - edge) % pace := by
  have parts := Int.emod_add_mul_ediv (x - edge) pace
  have least := Int.emod_nonneg (x - edge) positive.ne'
  have most := Int.emod_lt_of_pos (x - edge) positive
  have quotient : stepsTo pace edge x = -((x - edge) / pace) := by
    refine ((Int.ediv_emod_unique (r := pace - 1 - (x - edge) % pace) positive).mpr ⟨?_, ?_, ?_⟩).1
    · linarith
    · omega
    · omega
  rw [quotient]
  linarith

theorem stepsTo_antitone (positive : 0 < pace) {y : Int} (below : x ≤ y) :
    stepsTo pace edge y ≤ stepsTo pace edge x :=
  Int.ediv_le_ediv positive (by omega)

theorem stepsTo_pos (positive : 0 < pace) (before : x < edge) : 0 < stepsTo pace edge x := by
  have reached : x + stepsTo pace edge x * pace = edge + (x - edge) % pace := stepsTo_mul positive
  have least := Int.emod_nonneg (x - edge) positive.ne'
  by_contra none_
  have back : stepsTo pace edge x * pace ≤ 0 := Int.mul_nonpos_of_nonpos_of_nonneg (by omega) positive.le
  omega

theorem stepsTo_nonpos (positive : 0 < pace) (past : edge ≤ x) : stepsTo pace edge x ≤ 0 := by
  have some_ : edge - x + pace - 1 < 1 * pace := by omega
  have short := Int.ediv_lt_of_lt_mul positive some_
  unfold stepsTo
  omega

/-- A place on the ring. -/
theorem arrives_here (first : 0 ≤ x) (last : x < size) (past : edge ≤ x) : Arrives size pace edge n x :=
  ⟨0, Nat.zero_le n, by simpa [Int.emod_eq_of_lt first last] using past⟩

/-- A walk has arrived, or goes on from the next place. -/
theorem arrives_succ (first : 0 ≤ x) (last : x < size) :
    Arrives size pace edge (n + 1) x ↔ edge ≤ x ∨ Arrives size pace edge n ((x + pace) % size) := by
  have next : ∀ k : Nat, (x + ((k + 1 : Nat) : Int) * pace) % size = ((x + pace) % size + k * pace) % size := by
    intro k
    rw [Int.emod_add_emod]
    congr 1
    push_cast
    ring
  constructor
  · rintro ⟨k, few, past⟩
    cases k with
    | zero => exact Or.inl (by simpa [Int.emod_eq_of_lt first last] using past)
    | succ k => exact Or.inr ⟨k, by omega, by rwa [← next]⟩
  · rintro (past | ⟨k, few, past⟩)
    · exact arrives_here first last past
    · exact ⟨k + 1, by omega, by rwa [next]⟩

/-- A walk that lands before the end of the ring arrives in as many steps. -/
theorem arrives_of_lands (positive : 0 < pace) (first : 0 ≤ edge) (before : x < edge)
    (lands : Lands size pace edge x) (enough : stepsTo pace edge x ≤ n) : Arrives size pace edge n x := by
  have steps := stepsTo_pos positive before
  have least := Int.emod_nonneg (x - edge) positive.ne'
  refine ⟨(stepsTo pace edge x).toNat, by omega, ?_⟩
  rw [Int.toNat_of_nonneg steps.le, stepsTo_mul positive, Int.emod_eq_of_lt (by omega) lands]
  omega

/-- A walk arrives before it passes the end of the ring, or goes all around. -/
theorem lands_of_arrives (ring : 0 < size) (positive : 0 < pace) (first : 0 ≤ x)
    (arrives : Arrives size pace edge n x) :
    Lands size pace edge x ∧ stepsTo pace edge x ≤ n ∨ size + edge ≤ x + n * pace := by
  obtain ⟨k, few, past⟩ := arrives
  have reached : x + stepsTo pace edge x * pace = edge + (x - edge) % pace := stepsTo_mul positive
  have most := Int.emod_lt_of_pos (x - edge) positive
  have walked : (0 : Int) ≤ k * pace := Int.mul_nonneg (by omega) positive.le
  have further : (k : Int) * pace ≤ n * pace := Int.mul_le_mul_of_nonneg_right (by omega) positive.le
  by_cases around : x + k * pace < size
  · rw [Int.emod_eq_of_lt (by omega) around] at past
    have steps : stepsTo pace edge x ≤ k := by
      by_contra more
      have back : ((k : Int) + 1) * pace ≤ stepsTo pace edge x * pace :=
        Int.mul_le_mul_of_nonneg_right (by omega) positive.le
      rw [Int.add_mul, Int.one_mul] at back
      omega
    have sooner : stepsTo pace edge x * pace ≤ k * pace := Int.mul_le_mul_of_nonneg_right steps positive.le
    refine Or.inl ⟨?_, by omega⟩
    unfold Lands
    omega
  · refine Or.inr ?_
    have turned : (x + k * pace) % size ≤ x + k * pace - size := by
      have parts := Int.emod_add_mul_ediv (x + k * pace) size
      have turns : 1 ≤ (x + k * pace) / size := Int.le_ediv_of_mul_le ring (by omega)
      have whole : size * 1 ≤ size * ((x + k * pace) / size) := Int.mul_le_mul_of_nonneg_left turns ring.le
      omega
    omega

/-- All walks from a range, and from one step past each of its places, arrive in the steps of the walk
from its low end exactly when every walk lands on the ring, and a step that passes the end of the ring
leads past the edge or to a place from which the walk lands in as many steps. -/
theorem arrives_iff_lands (ring : 2 * pace ≤ size) (positive : 0 < pace) (first : 0 ≤ low) (last : high < size)
    (edgeFirst : 0 ≤ edge) (steps : (n : Int) = max 0 (stepsTo pace edge low)) :
    (∀ x, low ≤ x → x ≤ high → Arrives size pace edge n x ∧ Arrives size pace edge n ((x + pace) % size)) ↔
      ∀ x, low ≤ x → x ≤ high → (x < edge → Lands size pace edge x) ∧
        (size ≤ x + pace → edge ≤ x + pace - size ∨
          Lands size pace edge (x + pace - size) ∧ stepsTo pace edge (x + pace - size) ≤ stepsTo pace edge low) := by
  have lowSteps : low + stepsTo pace edge low * pace = edge + (low - edge) % pace := stepsTo_mul positive
  have lowMost := Int.emod_lt_of_pos (low - edge) positive
  constructor
  · intro arrives x above below
    -- the walk from the low end covers less than a step beyond the edge
    have walked : 0 < stepsTo pace edge low → (n : Int) * pace < edge + pace - low := by
      intro some_
      have same : (n : Int) = stepsTo pace edge low := by omega
      rw [same]
      omega
    refine ⟨fun before => ?_, fun around => ?_⟩
    · have offset := Int.emod_add_mul_ediv (x - low) pace
      have least := Int.emod_nonneg (x - low) positive.ne'
      have most := Int.emod_lt_of_pos (x - low) positive
      have turns : 0 ≤ pace * ((x - low) / pace) :=
        Int.mul_nonneg positive.le (Int.ediv_nonneg (by omega) positive.le)
      have same : (low + (x - low) % pace - edge) % pace = (x - edge) % pace := by
        have shift : low + (x - low) % pace - edge = x - edge - pace * ((x - low) / pace) := by omega
        rw [shift, Int.sub_mul_emod_self_left]
      rcases lands_of_arrives (by omega) positive (by omega)
        (arrives (low + (x - low) % pace) (by omega) (by omega)).1 with ⟨lands, _⟩ | around
      · unfold Lands at lands ⊢
        rwa [same] at lands
      · have some_ : 0 < stepsTo pace edge low := stepsTo_pos positive (by omega)
        have short := walked some_
        omega
    · have turned : (x + pace) % size = x + pace - size := by
        rw [← Int.sub_emod_right, Int.emod_eq_of_lt (by omega) (by omega)]
      by_cases past : edge ≤ x + pace - size
      · exact Or.inl past
      · have arrived := (arrives x above below).2
        rw [turned] at arrived
        have some_ : 0 < stepsTo pace edge (x + pace - size) := stepsTo_pos positive (by omega)
        rcases lands_of_arrives (by omega) positive (by omega) arrived with ⟨lands, few⟩ | twice
        · exact Or.inr ⟨lands, by omega⟩
        · by_cases steps_ : 0 < stepsTo pace edge low
          · have short := walked steps_
            omega
          · have idle : n = 0 := by omega
            subst idle
            simp only [Nat.cast_zero, Int.zero_mul, Int.add_zero] at twice
            omega
  · intro lands x above below
    obtain ⟨landed, wrapped⟩ := lands x above below
    have later : stepsTo pace edge x ≤ stepsTo pace edge low := stepsTo_antitone positive above
    constructor
    · by_cases before : x < edge
      · exact arrives_of_lands positive edgeFirst before (landed before) (by omega)
      · exact arrives_here (by omega) (by omega) (by omega)
    · by_cases around : size ≤ x + pace
      · have turned : (x + pace) % size = x + pace - size := by
          rw [← Int.sub_emod_right, Int.emod_eq_of_lt (by omega) (by omega)]
        rw [turned]
        rcases wrapped around with past | ⟨lands', few⟩
        · exact arrives_here (by omega) (by omega) past
        · by_cases before : x + pace - size < edge
          · exact arrives_of_lands positive edgeFirst before lands' (by omega)
          · exact arrives_here (by omega) (by omega) (by omega)
      · rw [Int.emod_eq_of_lt (by omega) (by omega)]
        by_cases before : x + pace < edge
        · refine arrives_of_lands positive edgeFirst before ?_ ?_
          · have same : (x + pace - edge) % pace = (x - edge) % pace := by
              rw [show x + pace - edge = x - edge + pace by omega, Int.add_emod_right]
            unfold Lands
            rw [same]
            exact landed (by omega)
          · have sooner : stepsTo pace edge (x + pace) ≤ stepsTo pace edge x := stepsTo_antitone positive (by omega)
            omega
        · exact arrives_here (by omega) (by omega) (by omega)

/-- Without a step to make, a step away from the edge leads past it only from a place that has that
much room, or around the end of the ring. -/
theorem arrives_iff_room (ring : -2 * pace ≤ size) (negative : pace < 0) (first : 0 ≤ low) (last : high < size)
    (past : edge ≤ low) :
    (∀ x, low ≤ x → x ≤ high → Arrives size pace edge 0 x ∧ Arrives size pace edge 0 ((x + pace) % size)) ↔
      ∀ x, low ≤ x → x ≤ high → x < -pace ∨ edge - pace ≤ x := by
  have here : ∀ y, Arrives size pace edge 0 y ↔ edge ≤ y % size := by
    intro y
    constructor
    · rintro ⟨k, few, past⟩
      obtain rfl := Nat.le_zero.mp few
      simpa using past
    · intro past
      exact ⟨0, Nat.le_refl 0, by simpa using past⟩
  refine forall_congr' fun x => forall_congr' fun above => forall_congr' fun below => ?_
  have on : x % size = x := Int.emod_eq_of_lt (by omega) (by omega)
  rw [here, here, on, Int.emod_emod]
  by_cases around : x + pace < 0
  · have turned : (x + pace) % size = x + pace + size := by
      have full : (x + pace + size) % size = (x + pace) % size := Int.add_emod_right _ _
      rw [← full]
      exact Int.emod_eq_of_lt (by omega) (by omega)
    rw [turned]
    omega
  · have stays : (x + pace) % size = x + pace := Int.emod_eq_of_lt (by omega) (by omega)
    rw [stays]
    omega

end EbpfLab.Library
