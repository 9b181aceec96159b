import EbpfLab.Elf.Program
import EbpfLab.Isa.Wire
import EbpfLab.Library.Outcome

/-!
# Linking

Both resolvers patch the immediates of wide loads in place, relocation by relocation. `usize` has 64
bits; where a build checks for overflow, an addition that overflows panics.
-/

namespace EbpfLab.Elf
open Isa Library Interp

/-- How a resolver ends early. -/
inductive Stop where
  | refused (e : ElfError)
  | panicked
  deriving DecidableEq, Repr

/-- `a + b` in a build with or without overflow checks. -/
def addUsize (checks : Bool) (a b : Nat) : Except Stop Nat :=
  if a + b < 2 ^ 64 then .ok (a + b)
  else if checks then .error .panicked
  else .ok ((a + b) % 2 ^ 64)

/-- `bytes.get(first..stop)`. -/
def getRange (bytes : Bytes) (first stop : Nat) : Option Bytes :=
  if first ≤ stop ∧ stop ≤ bytes.length then some (slice bytes first (stop - first)) else none

/-- The raw code of `R_BPF_64_64`. -/
def rBpf6464 : UInt32 := 1

/-- The raw code of `R_BPF_64_32`. -/
def rBpf6432 : UInt32 := 10

/-- The checks of a relocation before its symbol is looked up: the place of its first slot, and the
symbol. -/
def locate (checks : Bool) (shapes : List (Option UInt32)) (bytes : Bytes) (reloc : Relocation) :
    Except Stop (Nat × String) :=
  let outOfBounds : Stop := .refused (.relocOutOfBounds reloc.offset bytes.length)
  if reloc.offset % 8 ≠ 0 then .error outOfBounds
  else
    let slot := (reloc.offset / 8).toNat
    if slot * RawInsn.size ≥ 2 ^ 64 then .error outOfBounds
    else
      let first := slot * RawInsn.size
      addUsize checks first RawInsn.size >>= fun stop =>
        match getRange bytes first stop with
        | none => .error outOfBounds
        | some slotBytes =>
          match reloc.symbol with
          | none => .error (.refused (.unsupportedReloc reloc.offset reloc.rType none))
          | some symbol =>
            if slotBytes.head? ≠ some Opcode.ldImmDw ∨ reloc.rType ∉ shapes then
              .error (.refused (.unsupportedReloc reloc.offset reloc.rType (some symbol)))
            else
              -- a trailing slot has no second half after it
              addUsize checks first (2 * RawInsn.size) >>= fun stop =>
                if stop > bytes.length then .error outOfBounds else .ok (first, symbol)

/-- One turn of the loop of `resolve_map_relocs`. -/
def mapStep (checks : Bool) (mapFds : Table Int32) (bytes : Bytes) (reloc : Relocation) : Except Stop Bytes :=
  locate checks [none, some rBpf6464] bytes reloc >>= fun place =>
    match mapFds place.2 with
    | none => .error (.refused (.unresolvedMapSymbol place.2 reloc.offset))
    | some fd => .ok (overwrite bytes (place.1 + 4) (i32ToLeBytes fd).toList)

/-- One turn of the loop of `resolve_data_relocs`; the addend is the unsigned low half in place. -/
def dataStep (checks : Bool) (data : Table (Int64 × Nat)) (bytes : Bytes) (reloc : Relocation) :
    Except Stop Bytes :=
  locate checks [none, some rBpf6464, some rBpf6432] bytes reloc >>= fun place =>
    match data place.2 with
    | none => .error (.refused (.unresolvedDataSymbol place.2 reloc.offset))
    | some (base, _) =>
      let addend := leValue (slice bytes (place.1 + 4) 4 ++ [0, 0, 0, 0])
      match checkedAdd base addend with
      | none => .error (.refused (.relocOutOfBounds reloc.offset bytes.length))
      | some addr =>
        let le := leBytes addr 8
        let low := overwrite bytes (place.1 + 4) (le.take 4)
        let high := place.1 + RawInsn.size
        .ok (overwrite low (high + 4) (le.drop 4))

/-- The loop of a resolver: what is patched stays patched when a later relocation is refused. -/
def resolveLoop (step : Bytes → Relocation → Except Stop Bytes) : Bytes → List Relocation → Bytes × Except Stop Unit
  | bytes, [] => (bytes, .ok ())
  | bytes, reloc :: relocs =>
    match step bytes reloc with
    | .error stop => (bytes, .error stop)
    | .ok patched => resolveLoop step patched relocs

/-! ### What is patched -/

section

variable {checks : Bool} {shapes : List (Option UInt32)} {bytes patched : Bytes} {reloc : Relocation}
  {place : Nat × String} {step : Bytes → Relocation → Except Stop Bytes}
  {mapFds : Table Int32} {data : Table (Int64 × Nat)} {relocs : List Relocation}

/-- A relocation that is located: it names the first slot of two, which holds the wide opcode. -/
structure Located (bytes : Bytes) (reloc : Relocation) (place : Nat × String) : Prop where
  offset : reloc.offset.toNat = place.1
  slot : place.1 % 8 = 0
  inside : place.1 + 16 ≤ bytes.length
  opcode : bytes[place.1]? = some Opcode.ldImmDw
  symbol : reloc.symbol = some place.2

theorem offset_aligned_iff : reloc.offset % 8 ≠ 0 ↔ reloc.offset.toNat % 8 ≠ 0 := by
  rw [Ne, ← UInt64.toNat_inj, UInt64.toNat_mod]
  rfl

theorem offset_slot (aligned : reloc.offset.toNat % 8 = 0) :
    (reloc.offset / 8).toNat * RawInsn.size = reloc.offset.toNat := by
  rw [UInt64.toNat_div]
  change reloc.offset.toNat / 8 * 8 = _
  omega

theorem getRange_slot {first : Nat} : getRange bytes first (first + 8) =
    if first + 8 ≤ bytes.length then some (slice bytes first 8) else none := by
  unfold getRange
  rw [Nat.add_sub_cancel_left]
  by_cases inside : first + 8 ≤ bytes.length
  · rw [if_pos inside, if_pos ⟨by omega, inside⟩]
  · rw [if_neg inside, if_neg fun both => inside both.2]

theorem head_slice {first : Nat} : (slice bytes first 8).head? = bytes[first]? := by
  rw [slice, List.head?_take, if_neg (by decide), List.head?_drop]

/-- The checks of a relocation where no index overflows. -/
def locateInside (shapes : List (Option UInt32)) (bytes : Bytes) (reloc : Relocation) : Except Stop (Nat × String) :=
  let first := reloc.offset.toNat
  let outOfBounds : Stop := .refused (.relocOutOfBounds reloc.offset bytes.length)
  if first % 8 ≠ 0 ∨ bytes.length < first + 8 then .error outOfBounds
  else
    match reloc.symbol with
    | none => .error (.refused (.unsupportedReloc reloc.offset reloc.rType none))
    | some symbol =>
      if bytes[first]? ≠ some Opcode.ldImmDw ∨ reloc.rType ∉ shapes then
        .error (.refused (.unsupportedReloc reloc.offset reloc.rType (some symbol)))
      else if bytes.length < first + 16 then .error outOfBounds
      else .ok (first, symbol)

/-- The last slot of the address space is the only one whose end overflows. -/
theorem locate_edge (edge : reloc.offset.toNat = 2 ^ 64 - 8) : locate checks shapes bytes reloc =
    .error (if checks then .panicked else .refused (.relocOutOfBounds reloc.offset bytes.length)) := by
  have aligned : ¬reloc.offset % 8 ≠ 0 := fun off => offset_aligned_iff.mp off (by omega)
  have slot : (reloc.offset / 8).toNat * RawInsn.size = reloc.offset.toNat := offset_slot (by omega)
  unfold locate
  simp only [if_neg aligned, slot]
  rw [if_neg (by omega), addUsize, if_neg (by simp only [RawInsn.size]; omega)]
  cases checks with
  | true => rfl
  | false =>
    have wrapped : (reloc.offset.toNat + RawInsn.size) % 2 ^ 64 = 0 := by simp only [RawInsn.size]; omega
    have empty : getRange bytes reloc.offset.toNat 0 = none := if_neg (by omega)
    rw [if_neg Bool.false_ne_true, wrapped, ok_bind, empty]
    rfl

theorem locate_eq (bounded : bytes.length < 2 ^ 63) (away : reloc.offset.toNat ≠ 2 ^ 64 - 8) :
    locate checks shapes bytes reloc = locateInside shapes bytes reloc := by
  have small := reloc.offset.toNat_lt
  unfold locate locateInside
  dsimp only
  by_cases aligned : reloc.offset.toNat % 8 = 0
  · have even : ¬reloc.offset % 8 ≠ 0 := fun off => offset_aligned_iff.mp off aligned
    have added : addUsize checks reloc.offset.toNat RawInsn.size = .ok (reloc.offset.toNat + 8) :=
      if_pos (by simp only [RawInsn.size]; omega)
    rw [if_neg even, offset_slot aligned, if_neg (by omega), added, ok_bind, getRange_slot]
    by_cases inside : reloc.offset.toNat + 8 ≤ bytes.length
    · have added' : addUsize checks reloc.offset.toNat (2 * RawInsn.size) = .ok (reloc.offset.toNat + 16) :=
        if_pos (by simp only [RawInsn.size]; omega)
      rw [if_pos inside, if_neg (by omega)]
      dsimp only
      rw [head_slice, added']
      rfl
    · rw [if_neg inside, if_pos (by omega)]
  · rw [if_pos (offset_aligned_iff.mpr aligned), if_pos (.inl aligned)]

theorem locateInside_ok (located : locateInside shapes bytes reloc = .ok place) : Located bytes reloc place := by
  unfold locateInside at located
  dsimp only at located
  split at located
  · cases located
  rename_i inside
  split at located
  · cases located
  rename_i symbol named
  split at located
  · cases located
  rename_i shaped
  split at located
  · cases located
  cases located
  rw [not_or, not_not] at inside shaped
  exact { offset := rfl, slot := inside.1, inside := by omega, opcode := shaped.1, symbol := named }

theorem locate_ok (bounded : bytes.length < 2 ^ 63) (located : locate checks shapes bytes reloc = .ok place) :
    Located bytes reloc place := by
  by_cases edge : reloc.offset.toNat = 2 ^ 64 - 8
  · rw [locate_edge edge] at located
    cases located
  · exact locateInside_ok (locate_eq bounded edge ▸ located)

/-- A relocation whose only possible fault is its place: it has a symbol and a code of the resolver, and a
slot that starts at it holds the wide opcode. -/
structure WellShaped (shapes : List (Option UInt32)) (bytes : Bytes) (reloc : Relocation) : Prop where
  symbol : reloc.symbol.isSome = true
  shape : reloc.rType ∈ shapes
  opcode : reloc.offset.toNat % 8 = 0 → ∀ op, bytes[reloc.offset.toNat]? = some op → op = Opcode.ldImmDw

theorem locateInside_outside (shaped : WellShaped shapes bytes reloc)
    (outside : bytes.length < reloc.offset.toNat + 16) :
    locateInside shapes bytes reloc = .error (.refused (.relocOutOfBounds reloc.offset bytes.length)) := by
  obtain ⟨symbol, named⟩ := Option.isSome_iff_exists.mp shaped.symbol
  unfold locateInside
  dsimp only
  split
  · rfl
  rename_i inside
  have opcode : bytes[reloc.offset.toNat]? = some Opcode.ldImmDw := by
    have held := List.getElem?_eq_getElem (show reloc.offset.toNat < bytes.length by omega)
    rw [held, shaped.opcode (by omega) _ held]
  simp only [named]
  rw [if_neg (by simp [opcode, shaped.shape])]

theorem mapStep_ok (bounded : bytes.length < 2 ^ 63) (stepped : mapStep checks mapFds bytes reloc = .ok patched) :
    ∃ symbol fd, Located bytes reloc (reloc.offset.toNat, symbol) ∧ mapFds symbol = some fd ∧
      patched = overwrite bytes (reloc.offset.toNat + 4) (i32ToLeBytes fd).toList := by
  obtain ⟨⟨first, symbol⟩, located, stepped⟩ := bind_eq_ok.mp stepped
  have found := locate_ok bounded located
  obtain rfl : reloc.offset.toNat = first := found.offset
  dsimp only at stepped
  split at stepped
  · cases stepped
  · rename_i fd named
    cases stepped
    exact ⟨symbol, fd, found, named, rfl⟩

theorem dataStep_ok (bounded : bytes.length < 2 ^ 63) (stepped : dataStep checks data bytes reloc = .ok patched) :
    ∃ symbol base len addr, Located bytes reloc (reloc.offset.toNat, symbol) ∧ data symbol = some (base, len) ∧
      checkedAdd base (leValue (slice bytes (reloc.offset.toNat + 4) 4 ++ [0, 0, 0, 0])) = some addr ∧
      patched = overwrite (overwrite bytes (reloc.offset.toNat + 4) ((leBytes addr 8).take 4))
        (reloc.offset.toNat + 8 + 4) ((leBytes addr 8).drop 4) := by
  obtain ⟨⟨first, symbol⟩, located, stepped⟩ := bind_eq_ok.mp stepped
  have found := locate_ok bounded located
  obtain rfl : reloc.offset.toNat = first := found.offset
  dsimp only at stepped
  split at stepped
  · cases stepped
  · rename_i base len named
    split at stepped
    · cases stepped
    · rename_i addr added
      cases stepped
      exact ⟨symbol, base, len, addr, found, named, added, rfl⟩

/-- A step that patches in place, and no opcode. -/
def InPlace (step : Bytes → Relocation → Except Stop Bytes) : Prop :=
  ∀ bytes reloc patched, bytes.length < 2 ^ 63 → step bytes reloc = .ok patched →
    patched.length = bytes.length ∧ ∀ k, k % 8 = 0 → patched[k]? = bytes[k]?

theorem mapStep_inPlace (checks : Bool) (mapFds : Table Int32) : InPlace (mapStep checks mapFds) := by
  intro bytes reloc patched bounded stepped
  obtain ⟨symbol, fd, found, _, rfl⟩ := mapStep_ok bounded stepped
  have inside := found.inside
  have slot := found.slot
  dsimp only at inside slot
  have fits : reloc.offset.toNat + 4 + (i32ToLeBytes fd).toList.length ≤ bytes.length := by
    rw [Vector.length_toList]
    omega
  refine ⟨length_overwrite fits, fun k first => getElem?_overwrite fits ?_⟩
  rw [Vector.length_toList]
  omega

theorem dataStep_inPlace (checks : Bool) (data : Table (Int64 × Nat)) : InPlace (dataStep checks data) := by
  intro bytes reloc patched bounded stepped
  obtain ⟨symbol, base, len, addr, found, _, _, rfl⟩ := dataStep_ok bounded stepped
  have inside := found.inside
  have slot := found.slot
  dsimp only at inside slot
  have width : ((leBytes addr 8).take 4).length = 4 ∧ ((leBytes addr 8).drop 4).length = 4 := by
    simp
  have fits : reloc.offset.toNat + 4 + ((leBytes addr 8).take 4).length ≤ bytes.length := by omega
  have low := length_overwrite fits
  have fits' : reloc.offset.toNat + 8 + 4 + ((leBytes addr 8).drop 4).length ≤
      (overwrite bytes (reloc.offset.toNat + 4) ((leBytes addr 8).take 4)).length := by omega
  refine ⟨(length_overwrite fits').trans low, fun k first => ?_⟩
  rw [getElem?_overwrite fits' (by omega), getElem?_overwrite fits (by omega)]

theorem resolveLoop_length (inPlace : InPlace step) (bounded : bytes.length < 2 ^ 63) :
    (resolveLoop step bytes relocs).1.length = bytes.length := by
  induction relocs generalizing bytes with
  | nil => rfl
  | cons reloc relocs ih =>
    unfold resolveLoop
    split
    · rfl
    · rename_i patched stepped
      have same := (inPlace _ _ _ bounded stepped).1
      rw [ih (same ▸ bounded), same]

/-- The loop goes on behind what it accepts. -/
theorem resolveLoop_append {mid : Bytes} {more : List Relocation}
    (accepted : resolveLoop step bytes relocs = (mid, .ok ())) :
    resolveLoop step bytes (relocs ++ more) = resolveLoop step mid more := by
  induction relocs generalizing bytes with
  | nil =>
    cases accepted
    rfl
  | cons reloc relocs ih =>
    unfold resolveLoop at accepted
    split at accepted
    · cases accepted
    · rename_i patched stepped
      rw [List.cons_append, resolveLoop, stepped]
      exact ih accepted

/-- What the loop keeps of the bytes. -/
theorem resolveLoop_opcode (inPlace : InPlace step) (bounded : bytes.length < 2 ^ 63) {k : Nat} (first : k % 8 = 0) :
    (resolveLoop step bytes relocs).1[k]? = bytes[k]? := by
  induction relocs generalizing bytes with
  | nil => rfl
  | cons reloc relocs ih =>
    unfold resolveLoop
    split
    · rfl
    · rename_i patched stepped
      obtain ⟨same, opcodes⟩ := inPlace _ _ _ bounded stepped
      rw [ih (same ▸ bounded), opcodes k first]

/-- The loop ends early at the first relocation that a step stops at. -/
theorem resolveLoop_stops {stop : Stop} (stopped : (resolveLoop step bytes relocs).2 = .error stop) :
    ∃ before reloc after mid, relocs = before ++ reloc :: after ∧ resolveLoop step bytes before = (mid, .ok ()) ∧
      step mid reloc = .error stop := by
  induction relocs generalizing bytes with
  | nil => cases stopped
  | cons reloc relocs ih =>
    unfold resolveLoop at stopped
    split at stopped
    · rename_i stepped
      cases stopped
      exact ⟨[], reloc, relocs, bytes, rfl, rfl, stepped⟩
    · rename_i patched stepped
      obtain ⟨before, other, after, mid, rfl, accepted, refused⟩ := ih stopped
      refine ⟨reloc :: before, other, after, mid, rfl, ?_, refused⟩
      rw [resolveLoop, stepped]
      exact accepted

end

/-! ### The resolvers -/

/-- A resolver over a program's relocations. -/
def ElfProgram.resolve (prog : ElfProgram) (step : Bytes → Relocation → Except Stop Bytes) (inPlace : InPlace step) :
    ElfProgram × Except Stop Unit :=
  ({ prog with
      bytes := (resolveLoop step prog.bytes prog.relocations).1
      bounded := resolveLoop_length inPlace prog.bounded ▸ prog.bounded },
    (resolveLoop step prog.bytes prog.relocations).2)

/-- `resolve_map_relocs`. -/
def resolveMapRelocs (checks : Bool) (mapFds : Table Int32) (prog : ElfProgram) : ElfProgram × Except Stop Unit :=
  prog.resolve (mapStep checks mapFds) (mapStep_inPlace checks mapFds)

/-- `resolve_data_relocs`. -/
def resolveDataRelocs (checks : Bool) (data : Table (Int64 × Nat)) (prog : ElfProgram) :
    ElfProgram × Except Stop Unit :=
  prog.resolve (dataStep checks data) (dataStep_inPlace checks data)

/-- Whether a relocation's symbol is in a table. -/
def Relocation.named {α : Type} (reloc : Relocation) (table : Table α) : Bool :=
  reloc.symbol.any fun symbol => (table symbol).isSome

/-- `resolve_all_relocs`. The list of relocations is put back whatever the outcome, unless a resolver
panics. -/
def resolveAllRelocs (checks : Bool) (mapFds : Table Int32) (data : Table (Int64 × Nat)) (prog : ElfProgram) :
    ElfProgram × Except Stop Unit :=
  match prog.relocations.find? fun reloc => reloc.named mapFds && reloc.named data with
  | some reloc => (prog, .error (.refused (.unsupportedReloc reloc.offset reloc.rType reloc.symbol)))
  | none =>
    let mapRelocs := prog.relocations.filter fun reloc => !reloc.named data
    let dataRelocs := prog.relocations.filter fun reloc => reloc.named data
    let mapped := resolveMapRelocs checks mapFds { prog with relocations := mapRelocs }
    let outcome : ElfProgram × Except Stop Unit :=
      match mapped.2 with
      | .error stop => (mapped.1, .error stop)
      | .ok () => resolveDataRelocs checks data { mapped.1 with relocations := dataRelocs }
    match outcome.2 with
    | .error .panicked => outcome
    | _ => ({ outcome.1 with relocations := prog.relocations }, outcome.2)

end EbpfLab.Elf
