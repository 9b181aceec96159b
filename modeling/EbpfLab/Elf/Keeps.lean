import Mathlib.Data.List.Nodup
import EbpfLab.Elf.Link
import EbpfLab.Isa.Patch
import EbpfLab.Vm.Access

/-!
# What linking changes

Linking a decoded program changes the immediates of the relocated wide loads and nothing else, unless a
relocation names the second slot of a wide load.
-/

namespace EbpfLab.Elf
open Isa Library Interp Opcode

/-- A relocation names the second slot of a decoded wide load. -/
def Trailing (insns : List Insn) (reloc : Relocation) : Prop :=
  ∃ i dst imm, insns[i]? = some (.loadImm64 dst imm) ∧ reloc.offset.toNat = byteOffset insns i + 8

/-- What a map relocation makes of an immediate: the low half is the map's descriptor. -/
def MapBecomes (mapFds : Table Int32) (reloc : Relocation) (imm imm' : Int64) : Prop :=
  ∃ symbol fd, reloc.symbol = some symbol ∧ mapFds symbol = some fd ∧ lowWord imm' = fd.toUInt32 ∧
    imm'.toUInt64 >>> 32 = imm.toUInt64 >>> 32

/-- What a data relocation makes of an immediate: its low half is an offset from the section's base. -/
def DataBecomes (data : Table (Int64 × Nat)) (reloc : Relocation) (imm imm' : Int64) : Prop :=
  ∃ symbol base len, reloc.symbol = some symbol ∧ data symbol = some (base, len) ∧
    imm'.toInt = base.toInt + (lowWord imm).toNat

/-- What a relocation makes of an immediate. -/
def Becomes (mapFds : Table Int32) (data : Table (Int64 × Nat)) (reloc : Relocation) (imm imm' : Int64) : Prop :=
  if reloc.named data then DataBecomes data reloc imm imm' else MapBecomes mapFds reloc imm imm'

/-- Every relocation is at the start of a wide load, and only the immediates of those loads change. -/
structure LinksOnly (becomes : Relocation → Int64 → Int64 → Prop) (relocs : List Relocation)
    (insns insns' : List Insn) : Prop where
  length : insns'.length = insns.length
  offsets : ∀ i, byteOffset insns' i = byteOffset insns i
  kept : ∀ i, (∀ reloc ∈ relocs, reloc.offset.toNat ≠ byteOffset insns i) → insns'[i]? = insns[i]?
  changed : ∀ reloc ∈ relocs, ∃ i dst imm imm', reloc.offset.toNat = byteOffset insns i ∧
    insns[i]? = some (.loadImm64 dst imm) ∧ insns'[i]? = some (.loadImm64 dst imm') ∧ becomes reloc imm imm'

variable {insns mid insns' : List Insn} {reloc : Relocation} {relocs before after : List Relocation}
  {bytes linked : Bytes} {becomes : Relocation → Int64 → Int64 → Prop}
  {step : Bytes → Relocation → Except Stop Bytes} {checks : Bool} {mapFds : Table Int32}
  {data : Table (Int64 × Nat)} {prog : ElfProgram} {symbol : String} {i : Nat} {dst : Reg} {imm : Int64}

/-! ### Changes put together -/

theorem LinksOnly.refl (becomes : Relocation → Int64 → Int64 → Prop) (insns : List Insn) :
    LinksOnly becomes [] insns insns where
  length := rfl
  offsets := fun _ => rfl
  kept := fun _ _ => rfl
  changed := fun _ absent => absurd absent List.not_mem_nil

theorem LinksOnly.single {imm' : Int64} (here : insns[i]? = some (.loadImm64 dst imm))
    (place : reloc.offset.toNat = byteOffset insns i) (made : becomes reloc imm imm') :
    LinksOnly becomes [reloc] insns (insns.set i (.loadImm64 dst imm')) where
  length := List.length_set
  offsets := byteOffset_set here rfl
  kept := fun j apart => by
    rw [List.getElem?_set_ne]
    rintro rfl
    exact apart reloc List.mem_cons_self place
  changed := fun other present => by
    obtain rfl := List.mem_singleton.mp present
    refine ⟨i, dst, imm, imm', place, here, ?_, made⟩
    rw [List.getElem?_set_self (List.getElem?_eq_some_iff.mp here).1]

/-- What becomes of the instructions that were there. -/
theorem LinksOnly.append (first : LinksOnly becomes before insns mid) (second : LinksOnly becomes after mid insns')
    (apart : ∀ reloc ∈ before, ∀ other ∈ after, reloc.offset ≠ other.offset) :
    LinksOnly becomes (before ++ after) insns insns' where
  length := second.length.trans first.length
  offsets := fun i => (second.offsets i).trans (first.offsets i)
  kept := fun i others => by
    rw [second.kept i fun reloc present => ?_, first.kept i fun reloc present => ?_]
    · exact others reloc (List.mem_append_left after present)
    · rw [first.offsets]
      exact others reloc (List.mem_append_right before present)
  changed := fun reloc present => by
    rcases List.mem_append.mp present with early | late
    · obtain ⟨i, dst, imm, imm', place, here, there, made⟩ := first.changed reloc early
      refine ⟨i, dst, imm, imm', place, here, ?_, made⟩
      rw [second.kept i fun other later same => ?_, there]
      rw [first.offsets, ← place] at same
      exact apart reloc early other later (UInt64.toNat_inj.mp same.symm)
    · obtain ⟨i, dst, imm, imm', place, here, there, made⟩ := second.changed reloc late
      rw [first.offsets] at place
      refine ⟨i, dst, imm, imm', place, ?_, there, made⟩
      rw [← first.kept i fun other earlier same => ?_, here]
      rw [← place] at same
      exact apart other earlier reloc late (UInt64.toNat_inj.mp same)

theorem LinksOnly.mono {becomes' : Relocation → Int64 → Int64 → Prop} {relocs' : List Relocation}
    (links : LinksOnly becomes relocs insns insns') (same : ∀ reloc, reloc ∈ relocs ↔ reloc ∈ relocs')
    (weaker : ∀ reloc ∈ relocs, ∀ imm imm', becomes reloc imm imm' → becomes' reloc imm imm') :
    LinksOnly becomes' relocs' insns insns' where
  length := links.length
  offsets := links.offsets
  kept := fun i others => links.kept i fun reloc present => others reloc ((same reloc).mp present)
  changed := fun reloc present => by
    have listed := (same reloc).mpr present
    obtain ⟨i, dst, imm, imm', place, here, there, made⟩ := links.changed reloc listed
    exact ⟨i, dst, imm, imm', place, here, there, weaker reloc listed imm imm' made⟩

/-- The wide loads stay where they are. -/
theorem LinksOnly.trailing (links : LinksOnly becomes relocs insns insns') (trailing : Trailing insns' reloc) :
    Trailing insns reloc := by
  obtain ⟨i, dst, imm, there, place⟩ := trailing
  rw [links.offsets] at place
  by_cases others : ∀ reloc ∈ relocs, reloc.offset.toNat ≠ byteOffset insns i
  · exact ⟨i, dst, imm, (links.kept i others).symm.trans there, place⟩
  · push Not at others
    obtain ⟨other, present, same⟩ := others
    obtain ⟨j, dst', imm', _, place', here, _⟩ := links.changed other present
    have inside : i < insns.length := links.length ▸ (List.getElem?_eq_some_iff.mp there).1
    obtain rfl := byteOffset_inj (List.getElem?_eq_getElem inside) here (same.symm.trans place')
    exact ⟨i, dst', imm', here, place⟩

/-! ### One relocation -/

theorem overwrite_at {before old new after : Bytes} {off : Nat} (place : before.length = off)
    (width : new.length = old.length) : overwrite (before ++ (old ++ after)) off new = before ++ (new ++ after) := by
  subst place
  rw [overwrite, List.take_left, width, ← List.drop_drop, List.drop_left, List.drop_left, List.append_assoc]

theorem slice_at {before here after : Bytes} {off width : Nat} (place : before.length = off)
    (length : here.length = width) : slice (before ++ (here ++ after)) off width = here := by
  subst place length
  rw [slice, List.drop_left, List.take_left]

/-- A located relocation is at the start of a wide load. -/
theorem Located.wide (decoded : decodeProgram bytes = .ok insns)
    (found : Located bytes reloc (reloc.offset.toNat, symbol)) (apart : ¬Trailing insns reloc) :
    ∃ i dst imm, insns[i]? = some (.loadImm64 dst imm) ∧ reloc.offset.toNat = byteOffset insns i := by
  have count := decodeProgram_length decoded
  have inside := found.inside
  have slot := found.slot
  dsimp only at inside slot
  obtain ⟨i, insn, here, place⟩ := slot_cases (show reloc.offset.toNat / 8 < slotCount insns by omega)
  rcases place with first | ⟨wide, second⟩
  · have start : reloc.offset.toNat = byteOffset insns i := by
      unfold byteOffset
      omega
    obtain ⟨before, chunk, after, rfl, offset, length, reads, _⟩ := decodeProgram_set decoded here
    have width := slotWidth_pos insn
    have opcode := found.opcode
    dsimp only at opcode
    rw [start, ← offset, List.getElem?_append_right (Nat.le_refl _), Nat.sub_self,
      List.getElem?_append_left (by omega)] at opcode
    obtain ⟨dst, imm, rfl⟩ := slotWidth_wide ((reads_opcode reads).mpr opcode)
    exact ⟨i, dst, imm, here, start⟩
  · obtain ⟨dst, imm, rfl⟩ := slotWidth_wide wide
    refine absurd ⟨i, dst, imm, here, ?_⟩ apart
    unfold byteOffset
    omega

/-- A step that changes the immediate of the wide load at the relocation and nothing else. -/
def Patches (becomes : Relocation → Int64 → Int64 → Prop) (step : Bytes → Relocation → Except Stop Bytes) : Prop :=
  ∀ bytes insns reloc patched, bytes.length < 2 ^ 63 → decodeProgram bytes = .ok insns → ¬Trailing insns reloc →
    step bytes reloc = .ok patched →
    ∃ insns', decodeProgram patched = .ok insns' ∧ LinksOnly becomes [reloc] insns insns'

theorem mapStep_patches (checks : Bool) (mapFds : Table Int32) :
    Patches (MapBecomes mapFds) (mapStep checks mapFds) := by
  intro bytes insns reloc patched bounded decoded apart stepped
  obtain ⟨symbol, fd, found, named, rfl⟩ := mapStep_ok bounded stepped
  obtain ⟨i, dst, imm, here, place⟩ := found.wide decoded apart
  obtain ⟨before, head, lo, mid, hi, after, rfl, start, one, low, _, high, rfl, replace⟩ :=
    decodeProgram_wide decoded here
  have digits : (i32ToLeBytes fd).toList = leDigits 4 fd.toUInt32.toNat := List.toList_toArray
  have width : (leDigits 4 fd.toUInt32.toNat).length = 4 := length_leDigits _ _
  have written := @overwrite_at (before ++ head) lo (leDigits 4 fd.toUInt32.toNat) (mid ++ (hi ++ after))
    (reloc.offset.toNat + 4) (by rw [List.length_append, one, start, place]) (width.trans low.symm)
  simp only [List.append_assoc] at written
  rw [digits, written]
  refine ⟨_, replace _ hi width high, .single here place ⟨symbol, fd, found.symbol, named, ?_, ?_⟩⟩
  · apply UInt32.toNat_inj.mp
    rw [lowWord_wideImm width high, leNat_leDigits fd.toUInt32.toNat_lt]
  · apply UInt64.toNat_inj.mp
    rw [highWord_wideImm width high, highWord_wideImm low high]

theorem wideImm_leBytes (v : Int64) : wideImm (leBytes v 8) = v := by
  rw [wideImm, leBytes_eq v (Nat.le_refl 8), leNat_leDigits v.toUInt64.toNat_lt, UInt64.ofNat_toNat,
    Int64.toInt64_toUInt64]

theorem dataStep_patches (checks : Bool) (data : Table (Int64 × Nat)) :
    Patches (DataBecomes data) (dataStep checks data) := by
  intro bytes insns reloc patched bounded decoded apart stepped
  obtain ⟨symbol, base, len, addr, found, named, added, rfl⟩ := dataStep_ok bounded stepped
  obtain ⟨i, dst, imm, here, place⟩ := found.wide decoded apart
  obtain ⟨before, head, lo, mid, hi, after, rfl, start, one, low, two, high, rfl, replace⟩ :=
    decodeProgram_wide decoded here
  have width : ((leBytes addr 8).take 4).length = 4 ∧ ((leBytes addr 8).drop 4).length = 4 := by simp
  have first : (before ++ head).length = reloc.offset.toNat + 4 := by rw [List.length_append, one, start, place]
  have second : (before ++ head ++ (leBytes addr 8).take 4 ++ mid).length = reloc.offset.toNat + 8 + 4 := by
    rw [List.length_append, List.length_append, first, width.1, two]
  have lower := @overwrite_at (before ++ head) lo ((leBytes addr 8).take 4) (mid ++ (hi ++ after)) _ first
    (width.1.trans low.symm)
  have upper := @overwrite_at _ hi ((leBytes addr 8).drop 4) after _ second (width.2.trans high.symm)
  have addend := @slice_at (before ++ head) lo (mid ++ (hi ++ after)) _ _ first low
  simp only [List.append_assoc] at lower upper addend
  rw [lower, upper]
  refine ⟨_, replace _ _ width.1 width.2, .single here place ⟨symbol, base, len, found.symbol, named, ?_⟩⟩
  have bound := leNat_lt lo
  rw [low] at bound
  have sum := checkedI64_eq_some.mp added
  have small : leNat (lo ++ [0, 0, 0, 0]) = leNat lo := by
    rw [leNat_append]
    rfl
  rw [addend, leValue_eq (by rw [List.length_append, low]; decide), small] at sum
  rw [List.take_append_drop, wideImm_leBytes, sum, lowWord_wideImm low high]
  congr 1
  exact Int64.toInt_ofNat_of_lt (by omega)

/-! ### All relocations -/

theorem resolveLoop_links (patches : Patches becomes step) (inPlace : InPlace step) (bounded : bytes.length < 2 ^ 63)
    (decoded : decodeProgram bytes = .ok insns) (apart : ∀ reloc ∈ relocs, ¬Trailing insns reloc)
    (distinct : (relocs.map Relocation.offset).Nodup) (accepted : resolveLoop step bytes relocs = (linked, .ok ())) :
    ∃ insns', decodeProgram linked = .ok insns' ∧ LinksOnly becomes relocs insns insns' := by
  induction relocs generalizing bytes insns with
  | nil =>
    cases accepted
    exact ⟨insns, decoded, .refl becomes insns⟩
  | cons reloc relocs ih =>
    unfold resolveLoop at accepted
    split at accepted
    · cases accepted
    rename_i patched stepped
    obtain ⟨fresh, distinct⟩ := List.nodup_cons.mp distinct
    obtain ⟨mid, decoded', links⟩ :=
      patches _ _ _ _ bounded decoded (apart reloc List.mem_cons_self) stepped
    have apart' : ∀ other ∈ relocs, ¬Trailing mid other := fun other present trailing =>
      apart other (List.mem_cons_of_mem reloc present) (links.trailing trailing)
    have bounded' : patched.length < 2 ^ 63 := (inPlace _ _ _ bounded stepped).1 ▸ bounded
    obtain ⟨insns', decoded'', rest⟩ := ih bounded' decoded' apart' distinct accepted
    refine ⟨insns', decoded'', links.append rest ?_⟩
    rintro _ present other later same
    obtain rfl := List.mem_singleton.mp present
    exact fresh (same ▸ List.mem_map_of_mem later)

/-- Linking runs both loops, one after the other. -/
theorem resolveAllRelocs_ok (accepted : (resolveAllRelocs checks mapFds data prog).2 = .ok ()) :
    ∃ mid, resolveLoop (mapStep checks mapFds) prog.bytes (prog.relocations.filter fun reloc => !reloc.named data) =
        (mid, .ok ()) ∧
      resolveLoop (dataStep checks data) mid (prog.relocations.filter fun reloc => reloc.named data) =
        ((resolveAllRelocs checks mapFds data prog).1.bytes, .ok ()) := by
  unfold resolveAllRelocs at accepted ⊢
  split at accepted
  · cases accepted
  dsimp only at accepted ⊢
  cases mapped : (resolveMapRelocs checks mapFds
      { prog with relocations := prog.relocations.filter fun reloc => !reloc.named data }).2 with
  | error stop =>
    rw [mapped] at accepted
    cases stop <;> cases accepted
  | ok =>
    rw [mapped] at accepted
    dsimp only at accepted ⊢
    split at accepted
    · rename_i panicked
      rw [panicked] at accepted
      cases accepted
    · exact ⟨_, Prod.ext rfl mapped, Prod.ext rfl accepted⟩

/-- Where linking succeeds on a decoded program with distinct offsets, it changes the immediates of the
relocated wide loads and nothing else, exactly when no relocation names the second slot of a wide load. -/
theorem linksOnly_iff (decoded : decodeProgram prog.bytes = .ok insns)
    (distinct : (prog.relocations.map Relocation.offset).Nodup)
    (accepted : (resolveAllRelocs checks mapFds data prog).2 = .ok ()) :
    (∃ insns', decodeProgram (resolveAllRelocs checks mapFds data prog).1.bytes = .ok insns' ∧
      LinksOnly (Becomes mapFds data) prog.relocations insns insns') ↔
      ∀ reloc ∈ prog.relocations, ¬Trailing insns reloc := by
  constructor
  · rintro ⟨insns', _, links⟩ reloc present ⟨i, dst, imm, here, second⟩
    obtain ⟨j, _, _, _, place, _⟩ := links.changed reloc present
    exact byteOffset_ne_trailing here (place.symm.trans second)
  · intro apart
    obtain ⟨mid, mapped, staged⟩ := resolveAllRelocs_ok accepted
    have part : ∀ keep : Relocation → Bool,
        ((prog.relocations.filter keep).map Relocation.offset).Nodup := fun keep =>
      distinct.sublist (List.filter_sublist.map Relocation.offset)
    have small : mid.length < 2 ^ 63 := by
      have length := @resolveLoop_length _ _ (prog.relocations.filter fun reloc => !reloc.named data)
        (mapStep_inPlace checks mapFds) prog.bounded
      rw [mapped] at length
      exact length ▸ prog.bounded
    obtain ⟨between, decoded', first⟩ := resolveLoop_links (mapStep_patches checks mapFds)
      (mapStep_inPlace checks mapFds) prog.bounded decoded
      (fun reloc present => apart reloc (List.mem_of_mem_filter present)) (part _) mapped
    obtain ⟨insns', decoded'', second⟩ := resolveLoop_links (dataStep_patches checks data)
      (dataStep_inPlace checks data) small decoded'
      (fun reloc present trailing => apart reloc (List.mem_of_mem_filter present) (first.trailing trailing))
      (part _) staged
    refine ⟨insns', decoded'', ?_⟩
    have first' : LinksOnly (Becomes mapFds data) (prog.relocations.filter fun reloc => !reloc.named data)
        insns between := by
      refine first.mono (fun _ => Iff.rfl) fun reloc present imm imm' made => ?_
      have other := (List.mem_filter.mp present).2
      rwa [Becomes, if_neg (by simpa using other)]
    have second' : LinksOnly (Becomes mapFds data) (prog.relocations.filter fun reloc => reloc.named data)
        between insns' := by
      refine second.mono (fun _ => Iff.rfl) fun reloc present imm imm' made => ?_
      rwa [Becomes, if_pos (List.mem_filter.mp present).2]
    refine (first'.append second' fun reloc early other late same => ?_).mono (fun reloc => ?_)
      fun _ _ _ _ made => made
    · have names := (List.mem_filter.mp early).2
      rw [List.inj_on_of_nodup_map distinct (List.mem_of_mem_filter early) (List.mem_of_mem_filter late) same,
        (List.mem_filter.mp late).2] at names
      cases names
    · rw [List.mem_append, List.mem_filter, List.mem_filter, ← and_or_left]
      cases reloc.named data <;> simp

/-- A map and a data relocation of two wide loads. -/
theorem linksOnly_two : ∃ prog : ElfProgram, prog.relocations.length = 2 ∧ ∃ insns insns',
    decodeProgram (resolveAllRelocs true (fun name => if name = "m" then some 7 else none)
      (fun name => if name = ".rodata" then some (0x50000, 20) else none) prog).1.bytes = .ok insns' ∧
    LinksOnly (Becomes (fun name => if name = "m" then some 7 else none)
      fun name => if name = ".rodata" then some (0x50000, 20) else none) prog.relocations insns insns' := by
  refine ⟨⟨[0x18, 1, 0, 0, 0, 0, 0, 0, 0, 0, 0, 0, 0, 0, 0, 0, 0x18, 2, 0, 0, 4, 0, 0, 0, 0, 0, 0, 0, 0, 0, 0, 0],
    [⟨16, some ".rodata", some 10⟩, ⟨0, some "m", some 1⟩], by decide⟩, rfl, [.loadImm64 1 0, .loadImm64 2 4], ?_⟩
  refine (linksOnly_iff (by decide) (by decide) (by decide)).mpr ?_
  rintro reloc present ⟨i, dst, imm, here, second⟩
  rcases List.mem_pair.mp present with rfl | rfl
  · exact byteOffset_ne_trailing (j := 1) here second
  · exact byteOffset_ne_trailing (j := 0) here second

/-- A wide load whose second slot has the wide opcode, relocated there. -/
theorem trailing_relocated : ¬∀ (prog : ElfProgram) (mapFds : Table Int32) (data : Table (Int64 × Nat))
    (insns : List Insn), decodeProgram prog.bytes = .ok insns → (prog.relocations.map Relocation.offset).Nodup →
    (resolveAllRelocs true mapFds data prog).2 = .ok () →
    ∃ insns', decodeProgram (resolveAllRelocs true mapFds data prog).1.bytes = .ok insns' ∧
      LinksOnly (Becomes mapFds data) prog.relocations insns insns' := by
  intro claim
  obtain ⟨insns', _, links⟩ := claim ⟨[0x18, 1, 0, 0, 0, 0, 0, 0, 0x18, 0, 0, 0, 0, 0, 0, 0, 0x95, 0, 0, 0, 0, 0, 0, 0],
    [⟨8, some "m", some 1⟩], by decide⟩ (fun _ => some 7) (fun _ => none) [.loadImm64 1 0, .exit] (by decide) (by decide)
    (by decide)
  obtain ⟨j, _, _, _, place, _⟩ := links.changed _ List.mem_cons_self
  exact byteOffset_ne_trailing (i := 0) rfl place.symm

end EbpfLab.Elf
