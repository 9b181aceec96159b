import EbpfLab.Ssa.Visits

/-!
# Which version holds a register

A version is inbound in a block for a register where it is a phi of the block, an entry version, or
outbound in the only predecessor. Outbound is what the body defined last, or else what was inbound. What
the builder answers a read with is one of these, also where a resolution is entered again on its way: it
then names the merge with a phi, which is why following a predecessor may replace the version of a block.
-/

namespace EbpfLab.Ssa
open Isa FlowGraph

variable {cfg : Cfg} {b b' b'' : Builder} {block p pos k fuel : Nat} {reg r : Reg} {v w dst : SsaValue}
  {regOf regOf' regOf'' : SsaValue → Reg} {inputs : List (Pred × SsaValue)} {preds : List Nat}

namespace Builder

/-- The versions the prelude gives the registers. -/
def entryVersion (reg : Reg) : SsaValue := if reg.isFramePtr then 1 else if reg = 1 then 2 else 0

/-- The version the body of a block defined last for a register. -/
abbrev Owned := Nat → Reg → Option SsaValue

variable {own own' : Owned}

/-- The version holds the register where the block is entered. -/
inductive Inbound (cfg : Cfg) (regOf : SsaValue → Reg) (own : Owned) (b : Builder) :
    Nat → Reg → SsaValue → Prop where
  | phi {p k : Nat} {v : SsaValue} {inputs : List (Pred × SsaValue)}
      (there : (b.headOf p)[k]? = some (.phi v inputs)) : Inbound cfg regOf own b p (regOf v) v
  | entry {reg : Reg} (once : entryLoop cfg = false ∨ reg.isFramePtr = true) :
      Inbound cfg regOf own b cfg.entry reg (entryVersion reg)
  | alone {p : Nat} {reg : Reg} (only : cfg.preds p = [p]) (done : b.isFilled p) (unowned : own p reg = none) :
      Inbound cfg regOf own b p reg (entryVersion reg)
  | owned {p q : Nat} {reg : Reg} {v : SsaValue} (other : q ≠ p) (single : cfg.preds p = [q])
      (done : b.isFilled q) (owns : own q reg = some v) : Inbound cfg regOf own b p reg v
  | through {p q : Nat} {reg : Reg} {v : SsaValue} (other : q ≠ p) (single : cfg.preds p = [q])
      (done : b.isFilled q) (unowned : own q reg = none) (before : Inbound cfg regOf own b q reg v) :
      Inbound cfg regOf own b p reg v

/-- The version holds the register behind the body. -/
def Holds (cfg : Cfg) (regOf : SsaValue → Reg) (own : Owned) (b : Builder) (p : Nat) (reg : Reg) (v : SsaValue) :
    Prop :=
  own p reg = some v ∨ own p reg = none ∧ Inbound cfg regOf own b p reg v

/-- The version holds the register where the block, filled, is left. -/
def Outbound (cfg : Cfg) (regOf : SsaValue → Reg) (own : Owned) (b : Builder) (p : Nat) (reg : Reg)
    (v : SsaValue) : Prop :=
  b.isFilled p ∧ Holds cfg regOf own b p reg v

/-- A phi of the block for the register. -/
def IsPhi (regOf : SsaValue → Reg) (b : Builder) (p : Nat) (reg : Reg) (v : SsaValue) : Prop :=
  regOf v = reg ∧ ∃ (k : Nat) (inputs : List (Pred × SsaValue)), (b.headOf p)[k]? = some (.phi v inputs)

/-- The version the block has for the register, or with one predecessor a phi that named it before. -/
def Supplies (cfg : Cfg) (regOf : SsaValue → Reg) (b : Builder) (p : Nat) (reg : Reg) (v : SsaValue) : Prop :=
  b.current p reg = some v ∨ (∃ q, cfg.preds p = [q]) ∧ IsPhi regOf b p reg v

/-- An input that its predecessor sends out, or that is to be repaired. -/
def Given (cfg : Cfg) (regOf : SsaValue → Reg) (own : Owned) (b : Builder) (s : StaleInput) (v : SsaValue) : Prop :=
  s ∈ b.stale ∧ (b.current s.pred s.reg).isSome ∨
    Outbound cfg regOf own b s.pred s.reg v ∧ Supplies cfg regOf b s.pred s.reg v

/-- What stands in a head before the phis. -/
def pseudo (cfg : Cfg) (p : Nat) : List SsaInsn :=
  if p = cfg.entry then [.const 0 0, .framePtr 1, .entryCtx 2] else []

/-- What is true of the versions while the builder runs. -/
structure Grounded (cfg : Cfg) (regOf : SsaValue → Reg) (own : Owned) (b : Builder) : Prop where
  sized : Sized cfg b
  entryEnv : b.entryEnv = entryVersion
  next : 3 ≤ b.next
  phis : ∀ (p k : Nat) (v : SsaValue) (inputs : List (Pred × SsaValue)),
    (b.headOf p)[k]? = some (.phi v inputs) → 3 ≤ v ∧ v < b.next
  owned : ∀ p reg v, own p reg = some v → b.current p reg = some v ∧ regOf v = reg ∧ 3 ≤ v ∧ v < b.next
  current : ∀ p reg v, b.current p reg = some v → own p reg = none → Inbound cfg regOf own b p reg v
  given : ∀ (p k : Nat) (v : SsaValue) (inputs : List (Pred × SsaValue)),
    (b.headOf p)[k]? = some (.phi v inputs) → ∀ (idx q : Nat) (w : SsaValue),
      inputs[idx]? = some (some q, w) → Given cfg regOf own b ⟨p, k, idx, q, regOf v⟩ w
  starts : ∀ (p k : Nat) (v : SsaValue) (inputs : List (Pred × SsaValue)),
    (b.headOf p)[k]? = some (.phi v inputs) → ∀ w, (none, w) ∈ inputs → w = entryVersion (regOf v)
  shut : ∀ p, b.isSealed p → p ∈ cfg.preds p → b.isFilled p
  pend : ∀ p entry, entry ∈ b.pendOf p → ∃ v inputs,
    (b.headOf p)[entry.1]? = some (.phi v inputs) ∧ regOf v = entry.2
  recorded : ∀ s ∈ b.stale, ∃ v inputs w, (b.headOf s.block)[s.pos]? = some (.phi v inputs) ∧ regOf v = s.reg ∧
    inputs[s.idx]? = some (some s.pred, w)
  named : entryLoop cfg = false → ∀ reg, (b.current cfg.entry reg).isSome
  heads : ∀ p, ∃ phis, b.headOf p = pseudo cfg p ++ phis ∧ (∀ i ∈ phis, i.isPhi = true) ∧
    (p = cfg.entry → entryLoop cfg = false → phis = [])

/-- What a read leaves as it was. -/
structure Later (regOf regOf' : SsaValue → Reg) (b b' : Builder) : Prop where
  agree : ∀ v < b.next, regOf' v = regOf v
  next : b.next ≤ b'.next
  phis : ∀ (p k : Nat) (v : SsaValue) (inputs : List (Pred × SsaValue)),
    (b.headOf p)[k]? = some (.phi v inputs) → ∃ inputs', (b'.headOf p)[k]? = some (.phi v inputs')
  current : ∀ p reg v, b.current p reg = some v → b'.current p reg = some v
  stale : b.stale ⊆ b'.stale
  filled : b'.filled = b.filled
  bodies : b'.bodies = b.bodies

theorem Later.refl : Later regOf regOf b b :=
  ⟨fun _ _ => rfl, Nat.le_refl _, fun _ _ _ inputs there => ⟨inputs, there⟩, fun _ _ _ => id, List.Subset.refl _, rfl, rfl⟩

theorem Later.trans (first : Later regOf regOf' b b') (second : Later regOf' regOf'' b' b'') :
    Later regOf regOf'' b b'' where
  agree v below := (second.agree v (below.trans_le first.next)).trans (first.agree v below)
  next := first.next.trans second.next
  phis p k v inputs there := by
    obtain ⟨mid, found⟩ := first.phis p k v inputs there
    exact second.phis p k v mid found
  current p reg v found := second.current p reg v (first.current p reg v found)
  stale := List.Subset.trans first.stale second.stale
  filled := second.filled.trans first.filled
  bodies := second.bodies.trans first.bodies

/-! ### What keeps a version inbound -/

section

variable (phis : ∀ (p k : Nat) (v : SsaValue) (inputs : List (Pred × SsaValue)),
    (b.headOf p)[k]? = some (.phi v inputs) →
      regOf' v = regOf v ∧ ∃ inputs', (b'.headOf p)[k]? = some (.phi v inputs'))
  (filled : ∀ p, b.isFilled p → b'.isFilled p) (owned : ∀ p, b.isFilled p → own' p = own p)
include phis filled owned

theorem Inbound.mono (inbound : Inbound cfg regOf own b p reg v) : Inbound cfg regOf' own' b' p reg v := by
  induction inbound with
  | phi there =>
    obtain ⟨same, inputs', there'⟩ := phis _ _ _ _ there
    exact same ▸ .phi there'
  | entry once => exact .entry once
  | alone only done unowned => exact .alone only (filled _ done) (by rw [owned _ done, unowned])
  | owned other single done owns => exact .owned other single (filled _ done) (by rw [owned _ done, owns])
  | through other single done unowned _ ih =>
    exact .through other single (filled _ done) (by rw [owned _ done, unowned]) ih

omit filled owned in
theorem IsPhi.mono (phi : IsPhi regOf b p reg v) : IsPhi regOf' b' p reg v := by
  obtain ⟨named, k, inputs, there⟩ := phi
  obtain ⟨same, inputs', there'⟩ := phis p k v inputs there
  exact ⟨same.trans named, k, inputs', there'⟩

omit filled owned in
theorem Supplies.mono (current : b.current p reg = some v → b'.current p reg = some v)
    (supplies : Supplies cfg regOf b p reg v) : Supplies cfg regOf' b' p reg v :=
  supplies.imp current fun named => ⟨named.1, named.2.mono phis⟩

theorem Outbound.mono (outbound : Outbound cfg regOf own b p reg v) : Outbound cfg regOf' own' b' p reg v := by
  obtain ⟨done, holds⟩ := outbound
  refine ⟨filled p done, ?_⟩
  unfold Holds
  rw [owned p done]
  exact holds.imp id fun before => ⟨before.1, before.2.mono phis filled owned⟩

end

theorem Later.inbound (later : Later regOf regOf' b b') (grounded : Grounded cfg regOf own b)
    (inbound : Inbound cfg regOf own b p reg v) : Inbound cfg regOf' own b' p reg v :=
  inbound.mono (fun p k v inputs there => ⟨later.agree v (grounded.phis p k v inputs there).2, later.phis p k v inputs there⟩)
    (fun p => by unfold isFilled; rw [later.filled]; exact id) fun _ _ => rfl

theorem Later.outbound (later : Later regOf regOf' b b') (grounded : Grounded cfg regOf own b)
    (outbound : Outbound cfg regOf own b p reg v) : Outbound cfg regOf' own b' p reg v :=
  outbound.mono (fun p k v inputs there => ⟨later.agree v (grounded.phis p k v inputs there).2, later.phis p k v inputs there⟩)
    (fun p => by unfold isFilled; rw [later.filled]; exact id) fun _ _ => rfl

theorem Later.isPhi (later : Later regOf regOf' b b') (grounded : Grounded cfg regOf own b)
    (phi : IsPhi regOf b p reg v) : IsPhi regOf' b' p reg v :=
  phi.mono fun p k v inputs there => ⟨later.agree v (grounded.phis p k v inputs there).2, later.phis p k v inputs there⟩

theorem Later.supplies (later : Later regOf regOf' b b') (grounded : Grounded cfg regOf own b)
    (supplies : Supplies cfg regOf b p reg v) : Supplies cfg regOf' b' p reg v :=
  supplies.imp (later.current p reg v) fun named => ⟨named.1, later.isPhi grounded named.2⟩

theorem Later.named (later : Later regOf regOf' b b') (named : (b.current p reg).isSome) :
    (b'.current p reg).isSome := by
  obtain ⟨v, found⟩ := Option.isSome_iff_exists.mp named
  exact Option.isSome_iff_exists.mpr ⟨v, later.current p reg v found⟩

theorem Later.given {s : StaleInput} (later : Later regOf regOf' b b') (grounded : Grounded cfg regOf own b)
    (given : Given cfg regOf own b s v) : Given cfg regOf' own b' s v :=
  given.imp (fun listed => ⟨later.stale listed.1, later.named listed.2⟩)
    fun out => ⟨later.outbound grounded out.1, later.supplies grounded out.2⟩

/-- The version a block has holds the register there. -/
theorem Grounded.holds (grounded : Grounded cfg regOf own b) (found : b.current p reg = some v) :
    Holds cfg regOf own b p reg v := by
  cases owns : own p reg with
  | none => exact Or.inr ⟨owns, grounded.current p reg v found owns⟩
  | some w =>
    rw [(grounded.owned p reg w owns).1] at found
    exact Or.inl (owns.trans found)

theorem Grounded.unowned (grounded : Grounded cfg regOf own b) (absent : b.current p reg = none) :
    own p reg = none := by
  cases owns : own p reg with
  | none => rfl
  | some w =>
    rw [(grounded.owned p reg w owns).1] at absent
    cases absent

/-! ### Phis -/

/-- A minted phi stood in no head before. -/
theorem Mints.stood {k : Nat} (mints : Mints cfg b block reg b')
    (found : (b'.headOf p)[k]? = some (.phi dst inputs)) :
    (b.headOf p)[k]? = some (.phi dst inputs) ∨
      p = block ∧ k = (b.headOf block).length ∧ dst = b.next ∧ inputs = b.starts cfg block reg := by
  rw [mints.headOf] at found
  split at found
  · rename_i same
    subst same
    rw [List.getElem?_append] at found
    split at found
    · exact Or.inl found
    · obtain ⟨last, shape⟩ := List.getElem?_eq_some_iff.mp found
      simp only [List.length_singleton] at last
      simp only [List.getElem_singleton, SsaInsn.phi.injEq] at shape
      exact Or.inr ⟨rfl, by omega, shape.1.symm, shape.2.symm⟩
  · exact Or.inl found

theorem Mints.stays {k : Nat} (mints : Mints cfg b block reg b')
    (there : (b.headOf p)[k]? = some (.phi dst inputs)) : (b'.headOf p)[k]? = some (.phi dst inputs) := by
  rw [mints.headOf]
  split
  · rename_i same
    subst same
    rw [List.getElem?_append_left (List.getElem?_eq_some_iff.mp there).1, there]
  · exact there

theorem Mints.later (mints : Mints cfg b block reg b') (absent : b.current block reg = none)
    (regOf : SsaValue → Reg) :
    Later regOf (Function.update regOf b.next reg) b b' where
  agree v below := Function.update_of_ne (Nat.ne_of_lt below) _ _
  next := by rw [mints.next]; exact Nat.le_succ _
  phis p k v inputs there := ⟨inputs, mints.stays there⟩
  current p r v found := by
    rw [mints.current, if_neg, found]
    rintro ⟨rfl, rfl⟩
    rw [absent] at found
    cases found
  stale := by rw [mints.stale]; exact List.Subset.refl _
  filled := mints.filled
  bodies := mints.bodies

theorem Grounded.mint (grounded : Grounded cfg regOf own b) (mints : Mints cfg b block reg b')
    (absent : b.current block reg = none) : Grounded cfg (Function.update regOf b.next reg) own b' := by
  have later := mints.later absent regOf
  have isFilled_eq : b'.isFilled = b.isFilled := by funext p; rw [isFilled, mints.filled]; rfl
  have old : ∀ {p k : Nat} {v : SsaValue} {inputs : List (Pred × SsaValue)},
      (b.headOf p)[k]? = some (.phi v inputs) → Function.update regOf b.next reg v = regOf v :=
    fun there => later.agree _ (grounded.phis _ _ _ _ there).2
  have newest : Function.update regOf b.next reg b.next = reg := Function.update_self ..
  have first : ∀ w, (none, w) ∈ b.starts cfg block reg → w = entryVersion reg := by
    intro w input
    unfold Builder.starts at input
    split at input
    · cases List.mem_singleton.mp input
      rw [grounded.entryEnv]
    · cases input
  constructor
  case sized => exact mints.sized
  case entryEnv => rw [mints.entryEnv, grounded.entryEnv]
  case next => exact grounded.next.trans later.next
  case phis =>
    intro p k v inputs found
    rw [mints.next]
    rcases mints.stood found with there | ⟨_, _, rfl, _⟩
    · obtain ⟨lower, upper⟩ := grounded.phis p k v inputs there
      exact ⟨lower, Nat.lt_succ_of_lt upper⟩
    · exact ⟨grounded.next, Nat.lt_succ_self _⟩
  case owned =>
    intro p r v owns
    obtain ⟨found, names, lower, upper⟩ := grounded.owned p r v owns
    exact ⟨later.current p r v found, by rw [later.agree v upper, names], lower, upper.trans_le later.next⟩
  case current =>
    intro p r v found unowned
    rw [mints.current] at found
    split at found
    · rename_i same
      obtain ⟨rfl, rfl⟩ := same
      cases found
      have there : (b'.headOf p)[(b.headOf p).length]? = some (.phi b.next (b.starts cfg p r)) := by
        rw [mints.headOf, if_pos rfl, List.getElem?_concat_length]
      have inbound : Inbound cfg (Function.update regOf b.next r) own b' p
          (Function.update regOf b.next r b.next) b.next := .phi there
      rwa [newest] at inbound
    · exact later.inbound grounded (grounded.current p r v found unowned)
  case given =>
    intro p k v inputs found idx q w input
    rcases mints.stood found with there | ⟨_, _, _, rfl⟩
    · rw [old there]
      exact later.given grounded (grounded.given p k v inputs there idx q w input)
    · have inside := List.mem_of_getElem? input
      unfold Builder.starts at inside
      split at inside
      · cases List.mem_singleton.mp inside
      · cases inside
  case starts =>
    intro p k v inputs found w input
    rcases mints.stood found with there | ⟨_, _, rfl, rfl⟩
    · rw [old there]
      exact grounded.starts p k v inputs there w input
    · rw [newest]
      exact first w input
  case shut =>
    intro p shut self
    rw [isFilled_eq]
    refine grounded.shut p ?_ self
    rwa [isSealed, mints.sealed] at shut
  case pend =>
    intro p entry waits
    rw [pendOf, mints.incomplete] at waits
    obtain ⟨v, inputs, there, names⟩ := grounded.pend p entry waits
    exact ⟨v, inputs, mints.stays there, (old there).trans names⟩
  case recorded =>
    rw [mints.stale]
    intro s present
    obtain ⟨v, inputs, w, there, names, input⟩ := grounded.recorded s present
    exact ⟨v, inputs, w, mints.stays there, (old there).trans names, input⟩
  case named =>
    intro once r
    exact later.named (grounded.named once r)
  case heads =>
    intro p
    obtain ⟨phis, shape, phi, none_⟩ := grounded.heads p
    rw [mints.headOf]
    split
    · rename_i same
      subst same
      refine ⟨phis ++ [.phi b.next (b.starts cfg p reg)], by rw [shape, List.append_assoc], fun i among => ?_,
        fun here once => ?_⟩
      · rcases List.mem_append.mp among with early | late
        · exact phi i early
        · rw [List.mem_singleton.mp late]
          rfl
      · have named := grounded.named once reg
        rw [← here, absent] at named
        cases named
    · exact ⟨phis, shape, phi, none_⟩

/-! ### Inputs -/

section

variable {pred : Nat} {operand : SsaValue}

theorem takeInput_later (regOf : SsaValue → Reg) (pred : Nat) (reg : Reg) (operand : SsaValue)
    (inside : block < b.heads.length) (there : (b.headOf block)[pos]? = some (.phi dst inputs)) :
    Later regOf regOf b (b.takeInput block pos pred reg operand) := by
  obtain ⟨taken, others⟩ := takeInput_at pred reg operand inside there
  obtain ⟨cur, _, filled, _, _, _, next, bodies, _⟩ := takeInput_same b block pos pred reg operand
  refine ⟨fun _ _ => rfl, next.ge, fun p k v old found => ?_, fun p r v found => ?_, fun s present => ?_, filled, bodies⟩
  · by_cases same : (p, k) = (block, pos)
    · cases same
      rw [there] at found
      cases found
      exact ⟨_, taken⟩
    · exact ⟨old, (others p k same).trans found⟩
  · rwa [current, cur]
  · rw [takeInput_stale pred reg operand there]
    split
    · exact present
    · exact List.mem_append_left _ present

/-- A phi of the heads stood there before, unless it is the one that takes the input. -/
theorem takeInput_stood (inside : block < b.heads.length) (there : (b.headOf block)[pos]? = some (.phi dst inputs))
    {p k : Nat} {dst' : SsaValue} {inputs' : List (Pred × SsaValue)}
    (found : ((b.takeInput block pos pred reg operand).headOf p)[k]? = some (.phi dst' inputs')) :
    ((p, k) = (block, pos) ∧ dst' = dst ∧ inputs' = inputs ++ [(some pred, operand)]) ∨
      (b.headOf p)[k]? = some (.phi dst' inputs') := by
  obtain ⟨taken, others⟩ := takeInput_at pred reg operand inside there
  by_cases same : (p, k) = (block, pos)
  · cases same
    rw [taken] at found
    cases found
    exact Or.inl ⟨rfl, rfl, rfl⟩
  · exact Or.inr ((others p k same).symm.trans found)

variable (grounded : Grounded cfg regOf own b) (inside : block < b.heads.length)
  (there : (b.headOf block)[pos]? = some (.phi dst inputs)) (names : regOf dst = reg)
include grounded inside there names

/-- The new input is sent out by its predecessor, or is to be repaired; the others are as before. -/
theorem Grounded.takeInput_given (read : b.current pred reg = some operand) {p k : Nat} {v : SsaValue}
    {inputs' : List (Pred × SsaValue)}
    (found : ((b.takeInput block pos pred reg operand).headOf p)[k]? = some (.phi v inputs')) {idx q : Nat} {w : SsaValue}
    (input : inputs'[idx]? = some (some q, w)) :
    Given cfg regOf own (b.takeInput block pos pred reg operand) ⟨p, k, idx, q, regOf v⟩ w := by
  have later := takeInput_later regOf pred reg operand inside there
  rcases takeInput_stood inside there found with ⟨same, rfl, rfl⟩ | old
  · cases same
    rw [List.getElem?_append] at input
    split at input
    · exact later.given grounded (grounded.given _ _ _ _ there idx q w input)
    · rename_i late
      obtain ⟨last, shape⟩ := List.getElem?_eq_some_iff.mp input
      simp only [List.length_singleton] at last
      simp only [List.getElem_singleton, Prod.mk.injEq, Option.some.injEq] at shape
      obtain ⟨rfl, rfl⟩ := shape
      subst names
      cases done : b.isFilled pred with
      | true =>
        exact Or.inr ⟨later.outbound grounded ⟨done, grounded.holds read⟩, later.supplies grounded (Or.inl read)⟩
      | false =>
        refine Or.inl ⟨?_, by rw [later.current _ _ _ read]; rfl⟩
        have end_ : idx = inputs.length := by omega
        rw [takeInput_stale pred _ operand there, done, end_]
        exact List.mem_append_right _ List.mem_cons_self
  · exact later.given grounded (grounded.given p k v inputs' old idx q w input)

/-- What is to be repaired are inputs that stand. -/
theorem Grounded.takeInput_recorded {s : StaleInput} (present : s ∈ (b.takeInput block pos pred reg operand).stale) :
    ∃ v inputs w, ((b.takeInput block pos pred reg operand).headOf s.block)[s.pos]? = some (.phi v inputs) ∧
      regOf v = s.reg ∧ inputs[s.idx]? = some (some s.pred, w) := by
  obtain ⟨taken, others⟩ := takeInput_at pred reg operand inside there
  have before : s ∈ b.stale ∨ s = ⟨block, pos, inputs.length, pred, reg⟩ := by
    rw [takeInput_stale pred reg operand there] at present
    split at present
    · exact Or.inl present
    · simpa using present
  rcases before with before | rfl
  · obtain ⟨v, old, w, found, named, input⟩ := grounded.recorded s before
    by_cases same : (s.block, s.pos) = (block, pos)
    · obtain ⟨block_eq, pos_eq⟩ := Prod.mk.inj same
      rw [block_eq, pos_eq, there] at found
      cases found
      rw [block_eq, pos_eq]
      refine ⟨dst, _, w, taken, named, ?_⟩
      rwa [List.getElem?_append_left (List.getElem?_eq_some_iff.mp input).1]
    · exact ⟨v, old, w, (others _ _ same).trans found, named, input⟩
  · exact ⟨dst, _, operand, taken, names, by simp⟩

omit names in
/-- The heads keep their shape: the phi that takes an input stands behind the entry values. -/
theorem Grounded.takeInput_heads (p : Nat) :
    ∃ phis, (b.takeInput block pos pred reg operand).headOf p = pseudo cfg p ++ phis ∧ (∀ i ∈ phis, i.isPhi = true) ∧
      (p = cfg.entry → entryLoop cfg = false → phis = []) := by
  obtain ⟨phis, shape, phi, none_⟩ := grounded.heads p
  rw [takeInput_headOf inside]
  split
  · rename_i here
    subst here
    have late : (pseudo cfg p).length ≤ pos := by
      by_contra early
      rw [shape, List.getElem?_append_left (Nat.lt_of_not_le early)] at there
      unfold pseudo at there
      split at there
      · have among := List.mem_of_getElem? there
        simp at among
      · cases there
    obtain ⟨j, rfl⟩ := Nat.exists_eq_add_of_le late
    refine ⟨phis.modify j (pushInput (some pred, operand)), ?_, fun i among => ?_,
      fun entry once => by rw [none_ entry once, List.modify_nil]⟩
    · rw [shape]
      exact List.modifyTailIdx_add _ j (pseudo cfg p) phis
    · obtain ⟨k, at_⟩ := List.mem_iff_getElem?.mp among
      rw [List.getElem?_modify] at at_
      obtain ⟨old, before, rfl⟩ := Option.map_eq_some_iff.mp at_
      have stands := phi old (List.mem_of_getElem? before)
      split
      · cases old with
        | phi => rfl
        | _ => cases stands
      · exact stands
  · exact ⟨phis, shape, phi, none_⟩

theorem Grounded.takeInput (read : b.current pred reg = some operand) :
    Grounded cfg regOf own (b.takeInput block pos pred reg operand) := by
  have later := takeInput_later regOf pred reg operand inside there
  have current_eq : (b.takeInput block pos pred reg operand).current = b.current := by
    funext p r
    rw [Builder.current, (takeInput_same b block pos pred reg operand).1]
    rfl
  obtain ⟨cur, incomplete, filled, shut, entryEnv, _, next, _, heads⟩ := takeInput_same b block pos pred reg operand
  constructor
  case sized =>
    exact ⟨by rw [cur, grounded.sized.cur], by rw [heads, grounded.sized.heads],
      by rw [incomplete, grounded.sized.incomplete], by rw [filled, grounded.sized.filled],
      by rw [shut, grounded.sized.sealed]⟩
  case entryEnv => rw [entryEnv, grounded.entryEnv]
  case next => rw [next]; exact grounded.next
  case phis =>
    intro p k v inputs' found
    rw [next]
    rcases takeInput_stood inside there found with ⟨_, rfl, _⟩ | old
    · exact grounded.phis _ _ _ _ there
    · exact grounded.phis _ _ _ _ old
  case owned =>
    rw [current_eq, next]
    exact grounded.owned
  case current =>
    intro p r v found unowned
    rw [current_eq] at found
    exact later.inbound grounded (grounded.current p r v found unowned)
  case given =>
    intro p k v inputs' found idx q w input
    exact grounded.takeInput_given inside there names read found input
  case starts =>
    intro p k v inputs' found w input
    rcases takeInput_stood inside there found with ⟨_, rfl, rfl⟩ | old
    · rcases List.mem_append.mp input with before | new
      · exact grounded.starts _ _ _ _ there w before
      · cases List.mem_singleton.mp new
    · exact grounded.starts p k v inputs' old w input
  case shut =>
    intro p closed self
    rw [isFilled, filled]
    refine grounded.shut p ?_ self
    rwa [isSealed, shut] at closed
  case pend =>
    intro p entry waits
    rw [pendOf, incomplete] at waits
    obtain ⟨v, old, found, named⟩ := grounded.pend p entry waits
    obtain ⟨inputs', still⟩ := later.phis p _ v old found
    exact ⟨v, inputs', still, named⟩
  case recorded => exact fun s => grounded.takeInput_recorded inside there names
  case named =>
    rw [current_eq]
    exact grounded.named
  case heads => exact grounded.takeInput_heads inside there

end

/-! ### Reads -/

/-- A step that changes no version, phi or input. -/
theorem Grounded.same (grounded : Grounded cfg regOf own b) (sized : Sized cfg b') (cur : b'.cur = b.cur)
    (heads : b'.heads = b.heads) (stale : b'.stale = b.stale) (next : b'.next = b.next)
    (entryEnv : b'.entryEnv = b.entryEnv) (filled : ∀ p, b.isFilled p → b'.isFilled p)
    (shut : ∀ p, b'.isSealed p → p ∈ cfg.preds p → b'.isFilled p)
    (pend : ∀ p entry, entry ∈ b'.pendOf p → entry ∈ b.pendOf p ∨ ∃ v inputs,
      (b.headOf p)[entry.1]? = some (.phi v inputs) ∧ regOf v = entry.2) : Grounded cfg regOf own b' := by
  have current_eq : b'.current = b.current := by funext p r; rw [Builder.current, cur]; rfl
  have headOf_eq : b'.headOf = b.headOf := by funext p; rw [Builder.headOf, heads]; rfl
  have stays : ∀ (p k : Nat) (v : SsaValue) (inputs : List (Pred × SsaValue)),
      (b.headOf p)[k]? = some (.phi v inputs) →
        regOf v = regOf v ∧ ∃ inputs', (b'.headOf p)[k]? = some (.phi v inputs') :=
    fun p k v inputs there => ⟨rfl, inputs, by rw [headOf_eq, there]⟩
  constructor
  case sized => exact sized
  case entryEnv => rw [entryEnv, grounded.entryEnv]
  case next => rw [next]; exact grounded.next
  case phis =>
    rw [headOf_eq, next]
    exact grounded.phis
  case owned =>
    rw [current_eq, next]
    exact grounded.owned
  case current =>
    intro p r v found unowned
    rw [current_eq] at found
    exact (grounded.current p r v found unowned).mono stays filled fun _ _ => rfl
  case given =>
    intro p k v inputs found idx q w input
    rw [headOf_eq] at found
    unfold Given
    rw [stale, current_eq]
    exact (grounded.given p k v inputs found idx q w input).imp id fun out =>
      ⟨out.1.mono stays filled fun _ _ => rfl, out.2.mono stays (by rw [current_eq]; exact id)⟩
  case starts =>
    rw [headOf_eq]
    exact grounded.starts
  case shut => exact shut
  case pend =>
    intro p entry waits
    rw [headOf_eq]
    exact (pend p entry waits).elim (grounded.pend p entry) id
  case recorded =>
    rw [headOf_eq, stale]
    exact grounded.recorded
  case named =>
    rw [current_eq]
    exact grounded.named
  case heads =>
    rw [headOf_eq]
    exact grounded.heads

/-- The block gets an inbound version, in place of a phi it was named by, if any. -/
theorem Grounded.follow (grounded : Grounded cfg regOf own b) (inside : block < cfg.blocks.length)
    (unowned : own block reg = none) (inbound : Inbound cfg regOf own b block reg v)
    (single : ∃ q, cfg.preds block = [q]) (phi : ∀ w, b.current block reg = some w → IsPhi regOf b block reg w) :
    Grounded cfg regOf own (b.setCurrent block reg v) := by
  have row : block < b.cur.length := grounded.sized.cur.symm ▸ inside
  have current : ∀ p r, (b.setCurrent block reg v).current p r =
      if p = block ∧ r = reg then some v else b.current p r := fun p r => current_setCurrent row
  have named : ∀ p r, (b.current p r).isSome → ((b.setCurrent block reg v).current p r).isSome := by
    intro p r before
    rw [current]
    split
    · rfl
    · exact before
  have inbound_mono : ∀ {p : Nat} {r : Reg} {w : SsaValue}, Inbound cfg regOf own b p r w →
      Inbound cfg regOf own (b.setCurrent block reg v) p r w := fun held =>
    Inbound.mono (b := b) (fun p k w inputs there => ⟨rfl, inputs, there⟩) (fun _ => id) (fun _ _ => rfl) held
  refine { grounded with
    sized := ⟨by simpa [setCurrent] using grounded.sized.cur, grounded.sized.heads, grounded.sized.incomplete,
      grounded.sized.filled, grounded.sized.sealed⟩
    owned := fun p r w owns => ?_
    current := fun p r w found free => ?_
    given := fun p k w inputs there idx q u input => ?_
    named := fun once r => named _ _ (grounded.named once r) }
  · obtain ⟨found, rest⟩ := grounded.owned p r w owns
    refine ⟨?_, rest⟩
    rw [current, if_neg, found]
    rintro ⟨rfl, rfl⟩
    rw [unowned] at owns
    cases owns
  · rw [current] at found
    split at found
    · rename_i same
      obtain ⟨rfl, rfl⟩ := same
      cases found
      exact inbound_mono inbound
    · exact inbound_mono (grounded.current p r w found free)
  · refine (grounded.given p k w inputs there idx q u input).imp (fun listed => ⟨listed.1, named _ _ listed.2⟩)
      fun out => ⟨⟨out.1.1, out.1.2.imp id fun before => ⟨before.1, inbound_mono before.2⟩⟩, ?_⟩
    -- the version that is replaced was a phi of the block
    refine out.2.elim (fun found => ?_) Or.inr
    unfold Supplies
    rw [current]
    split
    · rename_i same
      obtain ⟨rfl, rfl⟩ := same
      exact Or.inr ⟨single, phi u found⟩
    · exact Or.inl found

/-- What a read that returns leaves. A resolution in flight finds its block without a version, or named by a
phi. -/
structure Grounds (cfg : Cfg) (own : Owned) (regOf : SsaValue → Reg) (b : Builder) (regOf' : SsaValue → Reg)
    (b' : Builder) : Prop where
  later : Later regOf regOf' b b'
  grounded : Grounded cfg regOf' own b'
  resolving : b'.resolving = b.resolving
  entered : ∀ p r, (p, r) ∈ b.resolving → b.current p r = none → ∀ v, b'.current p r = some v →
    IsPhi regOf' b' p r v

theorem Grounds.refl (grounded : Grounded cfg regOf own b) : Grounds cfg own regOf b regOf b :=
  ⟨.refl, grounded, rfl, fun _ _ _ absent v found => by rw [absent] at found; cases found⟩

theorem Grounds.trans (first : Grounds cfg own regOf b regOf' b') (second : Grounds cfg own regOf' b' regOf'' b'') :
    Grounds cfg own regOf b regOf'' b'' where
  later := first.later.trans second.later
  grounded := second.grounded
  resolving := second.resolving.trans first.resolving
  entered p r within absent v found := by
    cases mid : b'.current p r with
    | none => exact second.entered p r (by rwa [first.resolving]) mid v found
    | some w =>
      rw [second.later.current p r w mid] at found
      cases found
      exact second.later.isPhi first.grounded (first.entered p r within absent v mid)

/-- A minted phi. -/
theorem Grounds.of_mint (grounded : Grounded cfg regOf own b) (mints : Mints cfg b block reg b')
    (absent : b.current block reg = none) : Grounds cfg own regOf b (Function.update regOf b.next reg) b' where
  later := mints.later absent regOf
  grounded := grounded.mint mints absent
  resolving := mints.resolving
  entered p r _ missing v found := by
    rw [mints.current] at found
    split at found
    · rename_i same
      obtain ⟨rfl, rfl⟩ := same
      cases found
      exact ⟨Function.update_self .., _, _, by rw [mints.headOf, if_pos rfl, List.getElem?_concat_length]⟩
    · rw [missing] at found
      cases found

/-- The block gets an inbound version behind a read, in place of a phi it was named by, if any. -/
theorem Grounds.follow (grounds : Grounds cfg own regOf b regOf' b') (inside : block < cfg.blocks.length)
    (absent : b.current block reg = none) (outside : (block, reg) ∉ b.resolving) (unowned : own block reg = none)
    (inbound : Inbound cfg regOf' own b' block reg v) (single : ∃ q, cfg.preds block = [q])
    (phi : ∀ w, b'.current block reg = some w → IsPhi regOf' b' block reg w) :
    Grounds cfg own regOf b regOf' (b'.setCurrent block reg v) := by
  have row : block < b'.cur.length := grounds.grounded.sized.cur.symm ▸ inside
  have others : ∀ {p : Nat} {r : Reg}, ¬(p = block ∧ r = reg) →
      (b'.setCurrent block reg v).current p r = b'.current p r := fun other => by
    rw [current_setCurrent row, if_neg other]
  refine ⟨{ grounds.later with current := fun p r w found => ?_ },
    grounds.grounded.follow inside unowned inbound single phi, grounds.resolving, fun p r within missing w found => ?_⟩
  · rw [others, grounds.later.current p r w found]
    rintro ⟨rfl, rfl⟩
    rw [absent] at found
    cases found
  · rw [others] at found
    · exact grounds.entered p r within missing w found
    · rintro ⟨rfl, rfl⟩
      exact outside within

/-- The read comes back from the resolution it entered. -/
theorem Grounds.leave (grounds : Grounds cfg own regOf { b with resolving := (block, reg) :: b.resolving } regOf' b') :
    Grounds cfg own regOf b regOf' { b' with resolving := b'.resolving.tail } where
  later := ⟨grounds.later.agree, grounds.later.next, grounds.later.phis, grounds.later.current, grounds.later.stale,
    grounds.later.filled, grounds.later.bodies⟩
  grounded := grounds.grounded.same
    ⟨grounds.grounded.sized.cur, grounds.grounded.sized.heads, grounds.grounded.sized.incomplete,
      grounds.grounded.sized.filled, grounds.grounded.sized.sealed⟩
    rfl rfl rfl rfl rfl (fun _ => id) grounds.grounded.shut fun _ _ => Or.inl
  resolving := by
    change b'.resolving.tail = b.resolving
    rw [grounds.resolving]
    rfl
  entered p r within := grounds.entered p r (List.mem_cons_of_mem _ within)

/-- A resolution is entered. -/
theorem Grounded.enter (grounded : Grounded cfg regOf own b) :
    Grounded cfg regOf own { b with resolving := (block, reg) :: b.resolving } :=
  grounded.same
    ⟨grounded.sized.cur, grounded.sized.heads, grounded.sized.incomplete, grounded.sized.filled, grounded.sized.sealed⟩
    rfl rfl rfl rfl rfl (fun _ => id) grounded.shut fun _ _ => Or.inl

section

variable (inner : ∀ {p q : Nat}, q ∈ cfg.preds p → q < cfg.blocks.length)

section

variable {read : Read} (reads : ∀ {regOf : SsaValue → Reg} {b : Builder} {q : Nat} {v : SsaValue} {b' : Builder},
  q < cfg.blocks.length → Grounded cfg regOf own b → read b q reg = some (v, b') →
    ∃ regOf', Grounds cfg own regOf b regOf' b' ∧ b'.current q reg = some v)
include reads

theorem takeInputs_grounds (sources : ∀ q ∈ preds, q < cfg.blocks.length) (inside : block < cfg.blocks.length)
    (grounded : Grounded cfg regOf own b) (there : (b.headOf block)[pos]? = some (.phi dst inputs))
    (names : regOf dst = reg) (done : takeInputs read b block pos reg preds = some b') :
    ∃ regOf', Grounds cfg own regOf b regOf' b' := by
  induction preds generalizing b regOf inputs with
  | nil =>
    cases done
    exact ⟨regOf, .refl grounded⟩
  | cons pred preds ih =>
    rw [takeInputs, List.foldlM_cons] at done
    obtain ⟨taken, step, done⟩ := Option.bind_eq_some_iff.mp done
    obtain ⟨⟨operand, mid⟩, found, same⟩ := Option.map_eq_some_iff.mp step
    obtain ⟨regOf₁, first, named⟩ := reads (sources pred List.mem_cons_self) grounded found
    obtain ⟨inputs₁, there₁⟩ := first.later.phis block pos dst inputs there
    have names₁ : regOf₁ dst = reg := (first.later.agree dst (grounded.phis _ _ _ _ there).2).trans names
    have second : Grounds cfg own regOf₁ mid regOf₁ taken := by
      subst same
      refine ⟨takeInput_later regOf₁ pred reg operand (first.grounded.sized.heads.symm ▸ inside) there₁,
        first.grounded.takeInput (first.grounded.sized.heads.symm ▸ inside) there₁ names₁ named,
        (takeInput_same mid block pos pred reg operand).2.2.2.2.2.1, fun p r _ absent v found => ?_⟩
      rw [Builder.current, (takeInput_same mid block pos pred reg operand).1] at found
      rw [Builder.current, found] at absent
      cases absent
    obtain ⟨inputs₂, there₂⟩ := second.later.phis block pos dst inputs₁ there₁
    obtain ⟨regOf', rest⟩ :=
      ih (fun q later => sources q (List.mem_cons_of_mem _ later)) second.grounded there₂ names₁ done
    exact ⟨regOf', (first.trans second).trans rest⟩

include inner

theorem completePhi_grounds (inside : block < cfg.blocks.length) (grounded : Grounded cfg regOf own b)
    (there : (b.headOf block)[pos]? = some (.phi dst inputs)) (names : regOf dst = reg)
    (done : completePhi cfg read b block pos reg = some b') : ∃ regOf', Grounds cfg own regOf b regOf' b' := by
  rw [completePhi_eq] at done
  exact takeInputs_grounds reads (fun q => inner) inside grounded there names done

theorem merge_grounds (inside : block < cfg.blocks.length) (grounded : Grounded cfg regOf own b)
    (absent : b.current block reg = none) (done : merge cfg read b block reg = some (v, b')) :
    ∃ regOf', Grounds cfg own regOf b regOf' b' ∧ b'.current block reg = some v := by
  obtain ⟨mid, completed, same⟩ := Option.bind_eq_some_iff.mp done
  cases same
  have mints := mintPhi_mints reg grounded.sized inside
  have first : Grounds cfg own regOf b (Function.update regOf b.next reg) (b.mintPhi cfg block reg).2.2 :=
    .of_mint grounded mints absent
  have there : ((b.mintPhi cfg block reg).2.2.headOf block)[(b.headOf block).length]? =
      some (.phi b.next (b.starts cfg block reg)) := by
    rw [mints.headOf, if_pos rfl, List.getElem?_concat_length]
  obtain ⟨regOf', rest⟩ :=
    completePhi_grounds inner reads inside first.grounded there (Function.update_self ..) completed
  refine ⟨regOf', first.trans rest, rest.later.current _ _ _ ?_⟩
  rw [mints.current, if_pos ⟨rfl, rfl⟩]

omit reads inner in
/-- A read in an unsealed block leaves a phi for the seal. -/
theorem Grounds.of_wait (grounded : Grounded cfg regOf own b) (inside : block < cfg.blocks.length)
    (absent : b.current block reg = none) (mints : Mints cfg b block reg b') :
    Grounds cfg own regOf b (Function.update regOf b.next reg)
      { b' with incomplete := b'.incomplete.modify block (· ++ [((b.headOf block).length, reg)]) } := by
  have minted := Grounds.of_mint grounded mints absent
  have there : (b'.headOf block)[(b.headOf block).length]? = some (.phi b.next (b.starts cfg block reg)) := by
    rw [mints.headOf, if_pos rfl, List.getElem?_concat_length]
  refine ⟨⟨minted.later.agree, minted.later.next, minted.later.phis, minted.later.current, minted.later.stale,
    minted.later.filled, minted.later.bodies⟩,
    minted.grounded.same ?_ rfl rfl rfl rfl rfl (fun _ => id) minted.grounded.shut fun p entry waits => ?_,
    minted.resolving, minted.entered⟩
  · exact ⟨mints.sized.cur, mints.sized.heads, (List.length_modify ..).trans mints.sized.incomplete,
      mints.sized.filled, mints.sized.sealed⟩
  · unfold pendOf at waits
    dsimp only at waits
    rw [getD_modify (mints.sized.incomplete.symm ▸ inside)] at waits
    split at waits
    · rename_i same
      subst same
      rcases List.mem_append.mp waits with old | new
      · exact Or.inl old
      · cases List.mem_singleton.mp new
        exact Or.inr ⟨b.next, _, there, Function.update_self ..⟩
    · exact Or.inl waits

/-- Uncached, in a block whose resolution is not in flight. -/
theorem resolveUncached_grounds (inside : block < cfg.blocks.length) (grounded : Grounded cfg regOf own b)
    (absent : b.current block reg = none) (outside : (block, reg) ∉ b.resolving)
    (done : resolveUncached cfg read { b with resolving := (block, reg) :: b.resolving } block reg = some (v, b')) :
    ∃ regOf', Grounds cfg own regOf b regOf' { b' with resolving := b'.resolving.tail } ∧
      b'.current block reg = some v := by
  generalize pushed : ({ b with resolving := (block, reg) :: b.resolving } : Builder) = b₀ at done
  have entered : Grounded cfg regOf own b₀ := pushed ▸ grounded.enter
  have absent₀ : b₀.current block reg = none := by rwa [← pushed]
  have unowned := grounded.unowned absent
  have leave : ∀ {regOf' b'}, Grounds cfg own regOf b₀ regOf' b' →
      Grounds cfg own regOf b regOf' { b' with resolving := b'.resolving.tail } := by
    intro regOf' b' grounds
    rw [← pushed] at grounds
    exact grounds.leave
  -- a version set behind a read, when the resolution has been left
  have follows : ∀ {regOf' b' v}, Grounds cfg own regOf b₀ regOf' b' → Inbound cfg regOf' own b' block reg v →
      (∃ q, cfg.preds block = [q]) → ∃ regOf', Grounds cfg own regOf b regOf'
        { b'.setCurrent block reg v with resolving := (b'.setCurrent block reg v).resolving.tail } ∧
          (b'.setCurrent block reg v).current block reg = some v := by
    intro regOf' b' v grounds inbound single
    have phi := grounds.entered block reg (by rw [← pushed]; exact List.mem_cons_self) absent₀
    refine ⟨regOf', (leave grounds).follow inside absent outside unowned ?_ single phi, ?_⟩
    · exact Inbound.mono (b := b') (fun p k w inputs there => ⟨rfl, inputs, there⟩) (fun _ => id) (fun _ _ => rfl) inbound
    · rw [current_setCurrent (grounds.grounded.sized.cur.symm ▸ inside), if_pos ⟨rfl, rfl⟩]
  have merged : ∀ {v b'}, merge cfg read b₀ block reg = some (v, b') → ∃ regOf', Grounds cfg own regOf b regOf'
      { b' with resolving := b'.resolving.tail } ∧ b'.current block reg = some v := by
    intro v b' done
    obtain ⟨regOf', grounds, named⟩ := merge_grounds inner reads inside entered absent₀ done
    exact ⟨regOf', leave grounds, named⟩
  unfold resolveUncached at done
  split at done
  · -- the phi waits for the seal
    have mints := mintPhi_mints reg entered.sized inside
    cases done
    refine ⟨_, leave (Grounds.of_wait entered inside absent₀ mints), ?_⟩
    exact (mints.current block reg).trans (if_pos ⟨rfl, rfl⟩)
  · rename_i shut
    have closed : b₀.isSealed block := by simpa using shut
    split at done
    · rename_i pred single
      split at done
      · rename_i self
        subst self
        cases done
        have filled : b₀.isFilled pred := entered.shut pred closed (by rw [single]; exact List.mem_cons_self)
        refine follows (.refl entered) ?_ ⟨pred, single⟩
        rw [entered.entryEnv]
        exact .alone single filled unowned
      · rename_i other
        split at done
        · rename_i flags
          obtain ⟨⟨value, mid⟩, found, same⟩ := Option.bind_eq_some_iff.mp done
          cases same
          have listed : pred ∈ cfg.preds block := by
            rw [single]
            exact List.mem_cons_self
          obtain ⟨regOf', first, named⟩ := reads (inner listed) entered found
          have filled : mid.isFilled pred := by
            have before : b₀.isFilled pred = true := (Bool.and_eq_true_iff.mp flags).1
            rwa [isFilled, first.later.filled]
          refine follows first ?_ ⟨pred, single⟩
          rcases first.grounded.holds named with owns | ⟨free, before⟩
          · exact .owned other single filled owns
          · exact .through other single filled free before
        · exact merged done
    · exact merged done

theorem readRecursive_grounds (inside : block < cfg.blocks.length) (grounded : Grounded cfg regOf own b)
    (absent : b.current block reg = none) (done : readRecursive cfg read b block reg = some (v, b')) :
    ∃ regOf', Grounds cfg own regOf b regOf' b' ∧ b'.current block reg = some v := by
  unfold readRecursive at done
  split at done
  · exact merge_grounds inner reads inside grounded absent done
  · rename_i outside
    obtain ⟨⟨value, mid⟩, found, same⟩ := Option.bind_eq_some_iff.mp done
    cases same
    exact resolveUncached_grounds inner reads inside grounded absent (by simpa using outside) found

end

include inner

/-- What a read answers holds the register. -/
theorem read_grounds (inside : block < cfg.blocks.length) (grounded : Grounded cfg regOf own b)
    (done : read cfg fuel b block reg = some (v, b')) :
    ∃ regOf', Grounds cfg own regOf b regOf' b' ∧ b'.current block reg = some v := by
  induction fuel generalizing b block v b' regOf with
  | zero => cases done
  | succ fuel ih =>
    rw [read] at done
    dsimp only at done
    split at done
    · rename_i value found
      cases done
      exact ⟨regOf, .refl grounded, found⟩
    · rename_i absent
      exact readRecursive_grounds inner (fun inside grounded found => ih inside grounded found) inside grounded absent
        done

end

end Builder

end EbpfLab.Ssa
