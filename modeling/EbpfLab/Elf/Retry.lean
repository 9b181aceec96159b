import EbpfLab.Elf.Link
import EbpfLab.Vm.Access

/-!
# Links that fail

What a resolver has patched stays patched when it refuses a later relocation, so a failed link leaves
the program as it was where the last patch of each immediate restores it.
-/

namespace EbpfLab.Elf
open Isa Library Interp

/-! ### What relocations write -/

/-- What a relocation links to: a map's descriptor, or an address off a section's base. -/
inductive LinkTo where
  | descriptor (fd : Int32)
  | address (base : Int64)

/-- The slot a relocation names. -/
def Relocation.slot (reloc : Relocation) : Nat := reloc.offset.toNat / 8

/-- The immediate of a slot. -/
def immOf (bytes : Bytes) (slot : Nat) : Bytes := slice bytes (8 * slot + 4) 4

/-- What linking the relocation of the slot `place` writes to the immediate of a slot: the descriptor to
its own, or the halves of the address to its own and the next; the immediate there counts from the base. -/
def LinkTo.writes (place : Nat) (addend : Bytes) (slot : Nat) : LinkTo → Option Bytes
  | .descriptor fd => if slot = place then some (i32ToLeBytes fd).toList else none
  | .address base =>
    let le := leBytes (base + leValue (addend ++ [0, 0, 0, 0])) 8
    if slot = place then some (le.take 4) else if slot = place + 1 then some (le.drop 4) else none

/-- The slots whose immediates are written. -/
def LinkTo.Reaches (place slot : Nat) : LinkTo → Prop
  | .descriptor _ => slot = place
  | .address _ => slot = place ∨ slot = place + 1

/-- The immediate of a slot behind relocations, the latest first. -/
def immBehind (links : Relocation → Option LinkTo) (bytes : Bytes) : List Relocation → Nat → Bytes
  | [], slot => immOf bytes slot
  | reloc :: earlier, slot =>
    ((links reloc).bind (LinkTo.writes reloc.slot (immBehind links bytes earlier reloc.slot) slot)).getD
      (immBehind links bytes earlier slot)

/-- Of the relocations that write an immediate, the last one writes what was there to begin with. -/
def Restores (links : Relocation → Option LinkTo) (bytes : Bytes) (relocs : List Relocation) : Prop :=
  ∀ earlier reloc later link slot new, relocs = earlier ++ reloc :: later → links reloc = some link →
    link.writes reloc.slot (immBehind links bytes earlier.reverse reloc.slot) slot = some new →
    (∀ other ∈ later, ∀ link', links other = some link' → ¬link'.Reaches other.slot slot) →
    new = immOf bytes slot

/-- What a map relocation links to. -/
def mapLink (mapFds : Table Int32) (reloc : Relocation) : Option LinkTo :=
  (reloc.symbol.bind mapFds).map .descriptor

/-- What a data relocation links to. -/
def dataLink (data : Table (Int64 × Nat)) (reloc : Relocation) : Option LinkTo :=
  (reloc.symbol.bind data).map fun staged => .address staged.1

/-- What a relocation links to, by its kind. -/
def linkTo (mapFds : Table Int32) (data : Table (Int64 × Nat)) (reloc : Relocation) : Option LinkTo :=
  if reloc.named data then dataLink data reloc else mapLink mapFds reloc

/-! ### Failed links -/

/-- A resolver that refuses leaves the program as it was, and so does not spoil a further link. -/
def Atomic {α : Type} (resolver : α → ElfProgram → ElfProgram × Except Stop Unit) (tables : α)
    (prog : ElfProgram) : Prop :=
  ∀ e, (resolver tables prog).2 = .error (.refused e) → (resolver tables prog).1 = prog ∧
    ∀ completed, resolver completed (resolver tables prog).1 = resolver completed prog

/-- Where a relocation is refused, those accepted before it put back each immediate they write. -/
def Harmless (links : Relocation → Option LinkTo) (step : Bytes → Relocation → Except Stop Bytes) (bytes : Bytes)
    (relocs : List Relocation) : Prop :=
  ∀ before reloc after mid e, relocs = before ++ reloc :: after → resolveLoop step bytes before = (mid, .ok ()) →
    step mid reloc = .error (.refused e) → Restores links bytes before

/-- A step writes what its relocation links to, and no other byte. -/
def WritesLink (links : Relocation → Option LinkTo) (step : Bytes → Relocation → Except Stop Bytes) : Prop :=
  ∀ bytes reloc patched, bytes.length < 2 ^ 63 → step bytes reloc = .ok patched →
    (∀ k, k % 8 < 4 → patched[k]? = bytes[k]?) ∧ ∀ slot, immOf patched slot = immBehind links bytes [reloc] slot

/-- The step of `resolve_all_relocs`, by the kind of the relocation. -/
def linkStep (checks : Bool) (mapFds : Table Int32) (data : Table (Int64 × Nat)) (bytes : Bytes)
    (reloc : Relocation) : Except Stop Bytes :=
  if reloc.named data then dataStep checks data bytes reloc else mapStep checks mapFds bytes reloc

/-- The order in which `resolve_all_relocs` comes to the relocations. -/
def linkOrder (data : Table (Int64 × Nat)) (relocs : List Relocation) : List Relocation :=
  (relocs.filter fun reloc => !reloc.named data) ++ relocs.filter fun reloc => reloc.named data

variable {bytes other mid patched : Bytes} {reloc : Relocation} {relocs before after : List Relocation}
  {step : Bytes → Relocation → Except Stop Bytes} {links : Relocation → Option LinkTo} {link : LinkTo} {checks : Bool}
  {mapFds : Table Int32} {data : Table (Int64 × Nat)} {prog : ElfProgram} {place : Nat × String} {k slot : Nat}
  {stop : Stop} {addend new : Bytes}

/-! ### Immediates -/

theorem slice_overwrite {off width : Nat} (length : new.length = width) (inside : off + new.length ≤ bytes.length) :
    slice (overwrite bytes off new) off width = new := by
  subst length
  refine List.ext_getElem? fun j => ?_
  rw [slice, List.getElem?_take, List.getElem?_drop]
  by_cases within : j < new.length
  · rw [if_pos within, getElem?_overwrite_inside inside (by omega) (by omega), Nat.add_sub_cancel_left]
  · rw [if_neg within, List.getElem?_eq_none (by omega)]

theorem slice_overwrite_apart {off first width : Nat} (inside : off + new.length ≤ bytes.length)
    (apart : first + width ≤ off ∨ off + new.length ≤ first) :
    slice (overwrite bytes off new) first width = slice bytes first width := by
  refine List.ext_getElem? fun j => ?_
  rw [slice, slice, List.getElem?_take, List.getElem?_take, List.getElem?_drop, List.getElem?_drop]
  by_cases within : j < width
  · rw [if_pos within, if_pos within, getElem?_overwrite inside (by omega)]
  · rw [if_neg within, if_neg within]

/-- Bytes are the same when their immediates and the bytes between those are. -/
theorem bytes_ext (heads : ∀ k, k % 8 < 4 → patched[k]? = bytes[k]?)
    (imms : ∀ slot, immOf patched slot = immOf bytes slot) : patched = bytes := by
  refine List.ext_getElem? fun k => ?_
  by_cases head : k % 8 < 4
  · exact heads k head
  · have same := congrArg (·[k % 8 - 4]?) (imms (k / 8))
    have place : 8 * (k / 8) + 4 + (k % 8 - 4) = k := by omega
    simp only [immOf, slice, List.getElem?_take, List.getElem?_drop, if_pos (show k % 8 - 4 < 4 by omega), place]
      at same
    exact same

theorem LinkTo.reaches (written : link.writes reloc.slot addend slot = some new) : link.Reaches reloc.slot slot := by
  cases link with
  | descriptor fd =>
    simp only [writes] at written
    split at written
    · rename_i own
      exact own
    · cases written
  | address base =>
    simp only [writes] at written
    split at written
    · exact .inl ‹_›
    split at written
    · exact .inr ‹_›
    · cases written

theorem LinkTo.writes_reached (reached : link.Reaches reloc.slot slot) :
    ∃ new, link.writes reloc.slot addend slot = some new := by
  cases link with
  | descriptor fd => exact ⟨_, if_pos reached⟩
  | address base =>
    simp only [writes]
    split
    · exact ⟨_, rfl⟩
    · rename_i other
      rw [if_pos (reached.resolve_left other)]
      exact ⟨_, rfl⟩

theorem LinkTo.writes_low (base : Int64) (place : Nat) (addend : Bytes) : (LinkTo.address base).writes place addend place =
    some ((leBytes (base + leValue (addend ++ [0, 0, 0, 0])) 8).take 4) := if_pos rfl

theorem LinkTo.writes_high (base : Int64) (place : Nat) (addend : Bytes) :
    (LinkTo.address base).writes place addend (place + 1) =
      some ((leBytes (base + leValue (addend ++ [0, 0, 0, 0])) 8).drop 4) := by
  rw [writes, if_neg (Nat.succ_ne_self place), if_pos rfl]

theorem immBehind_written {earlier : List Relocation} (linked : links reloc = some link)
    (written : link.writes reloc.slot (immBehind links bytes earlier reloc.slot) slot = some new) :
    immBehind links bytes (reloc :: earlier) slot = new := by
  rw [immBehind, linked, Option.bind_some, written, Option.getD_some]

theorem immBehind_unwritten {earlier : List Relocation}
    (unreached : ∀ link, links reloc = some link → ¬link.Reaches reloc.slot slot) :
    immBehind links bytes (reloc :: earlier) slot = immBehind links bytes earlier slot := by
  rw [immBehind]
  cases linked : links reloc with
  | none => rfl
  | some link =>
    rw [Option.bind_some]
    cases written : link.writes reloc.slot (immBehind links bytes earlier reloc.slot) slot with
    | none => rfl
    | some new => exact absurd (LinkTo.reaches written) (unreached link linked)

/-- Behind the last relocation that writes an immediate, it is what that one writes. -/
theorem immBehind_last {earlier later : List Relocation} (linked : links reloc = some link)
    (written : link.writes reloc.slot (immBehind links bytes earlier reloc.slot) slot = some new)
    (last : ∀ other ∈ later, ∀ link', links other = some link' → ¬link'.Reaches other.slot slot) :
    immBehind links bytes (later ++ reloc :: earlier) slot = new := by
  induction later with
  | nil => exact immBehind_written linked written
  | cons other later ih =>
    rw [List.cons_append, immBehind_unwritten (last other List.mem_cons_self)]
    exact ih fun other' present => last other' (List.mem_cons_of_mem other present)

/-- An immediate is the one there was, or the last relocation that writes it did. -/
theorem immBehind_cases (links : Relocation → Option LinkTo) (bytes : Bytes) (slot : Nat) (relocs : List Relocation) :
    immBehind links bytes relocs slot = immOf bytes slot ∨
      ∃ later reloc earlier link, relocs = later ++ reloc :: earlier ∧ links reloc = some link ∧
        link.writes reloc.slot (immBehind links bytes earlier reloc.slot) slot =
          some (immBehind links bytes relocs slot) ∧
        ∀ other ∈ later, ∀ link', links other = some link' → ¬link'.Reaches other.slot slot := by
  induction relocs with
  | nil => exact .inl rfl
  | cons reloc relocs ih =>
    by_cases reached : ∃ link, links reloc = some link ∧ link.Reaches reloc.slot slot
    · obtain ⟨link, linked, reaches⟩ := reached
      obtain ⟨new, written⟩ := @LinkTo.writes_reached reloc link slot (immBehind links bytes relocs reloc.slot) reaches
      refine .inr ⟨[], reloc, relocs, link, rfl, linked, ?_, fun _ absent => absurd absent List.not_mem_nil⟩
      rw [immBehind_written linked written, written]
    · have unreached : ∀ link, links reloc = some link → ¬link.Reaches reloc.slot slot :=
        fun link linked reaches => reached ⟨link, linked, reaches⟩
      rw [immBehind_unwritten unreached]
      refine ih.imp_right ?_
      rintro ⟨later, other, earlier, link, rfl, linked, written, last⟩
      refine ⟨reloc :: later, other, earlier, link, rfl, linked, written, fun another present => ?_⟩
      rcases List.mem_cons.mp present with rfl | rest
      · exact unreached
      · exact last another rest

theorem restores_iff : Restores links bytes relocs ↔
    ∀ slot, immBehind links bytes relocs.reverse slot = immOf bytes slot := by
  constructor
  · intro restores slot
    rcases immBehind_cases links bytes slot relocs.reverse with same | ⟨later, reloc, earlier, link, split, linked, written, last⟩
    · exact same
    · refine restores earlier.reverse reloc later.reverse link slot _ ?_ linked ?_ ?_
      · rw [← List.reverse_reverse relocs, split]
        simp
      · rw [List.reverse_reverse]
        exact written
      · exact fun other present => last other (List.mem_reverse.mp present)
  · rintro same earlier reloc later link slot new rfl linked written last
    rw [← same slot, List.reverse_append, List.reverse_cons, List.append_assoc]
    exact (immBehind_last linked written fun other present => last other (List.mem_reverse.mp present)).symm

/-! ### The loop -/

theorem immBehind_patched (written : ∀ slot, immOf patched slot = immBehind links bytes [reloc] slot) :
    immBehind links patched relocs slot = immBehind links bytes (relocs ++ [reloc]) slot := by
  induction relocs generalizing slot with
  | nil => exact written slot
  | cons other relocs ih => rw [List.cons_append, immBehind, immBehind, ih, ih]

/-- The loop leaves the immediates that the relocations write. -/
theorem resolveLoop_writes (writes : WritesLink links step) (inPlace : InPlace step) (bounded : bytes.length < 2 ^ 63)
    (accepted : resolveLoop step bytes relocs = (mid, .ok ())) :
    (∀ k, k % 8 < 4 → mid[k]? = bytes[k]?) ∧ ∀ slot, immOf mid slot = immBehind links bytes relocs.reverse slot := by
  induction relocs generalizing bytes with
  | nil =>
    cases accepted
    exact ⟨fun _ _ => rfl, fun _ => rfl⟩
  | cons reloc relocs ih =>
    unfold resolveLoop at accepted
    split at accepted
    · cases accepted
    rename_i patched stepped
    have bounded' : patched.length < 2 ^ 63 := (inPlace _ _ _ bounded stepped).1 ▸ bounded
    obtain ⟨heads, written⟩ := writes _ _ _ bounded stepped
    obtain ⟨heads', imms⟩ := ih bounded' accepted
    refine ⟨fun k head => (heads' k head).trans (heads k head), fun slot => ?_⟩
    rw [imms slot, immBehind_patched written, List.reverse_cons]

/-- A loop that refuses leaves the bytes as they were exactly where it is harmless. -/
theorem resolveLoop_harmless_iff (writes : WritesLink links step) (inPlace : InPlace step)
    (bounded : bytes.length < 2 ^ 63) : Harmless links step bytes relocs ↔
      ∀ e, (resolveLoop step bytes relocs).2 = .error (.refused e) → (resolveLoop step bytes relocs).1 = bytes := by
  have ends : ∀ before reloc after mid e, relocs = before ++ reloc :: after →
      resolveLoop step bytes before = (mid, .ok ()) → step mid reloc = .error (.refused e) →
      resolveLoop step bytes relocs = (mid, .error (.refused e)) := by
    rintro before reloc after mid e rfl accepted refused
    rw [resolveLoop_append accepted, resolveLoop, refused]
  constructor
  · intro harmless e stopped
    obtain ⟨before, reloc, after, mid, split, accepted, refused⟩ := resolveLoop_stops stopped
    obtain ⟨heads, imms⟩ := resolveLoop_writes writes inPlace bounded accepted
    have restored := restores_iff.mp (harmless before reloc after mid e split accepted refused)
    rw [ends before reloc after mid e split accepted refused]
    exact bytes_ext heads fun slot => (imms slot).trans (restored slot)
  · intro unchanged before reloc after mid e split accepted refused
    have stopped := ends before reloc after mid e split accepted refused
    have same := unchanged e (by rw [stopped])
    rw [stopped] at same
    dsimp only at same
    subst same
    exact restores_iff.mpr fun slot => ((resolveLoop_writes writes inPlace bounded accepted).2 slot).symm

/-! ### The resolvers -/

theorem mapStep_writes (checks : Bool) (mapFds : Table Int32) : WritesLink (mapLink mapFds) (mapStep checks mapFds) := by
  intro bytes reloc patched bounded stepped
  obtain ⟨symbol, fd, found, named, rfl⟩ := mapStep_ok bounded stepped
  have inside := found.inside
  have aligned := found.slot
  dsimp only at inside aligned
  have width : (i32ToLeBytes fd).toList.length = 4 := Vector.length_toList
  have fits : reloc.offset.toNat + 4 + (i32ToLeBytes fd).toList.length ≤ bytes.length := by omega
  have linked : mapLink mapFds reloc = some (.descriptor fd) := by
    rw [mapLink, found.symbol, Option.bind_some, named, Option.map_some]
  refine ⟨fun k head => getElem?_overwrite fits (by omega), fun slot => ?_⟩
  by_cases own : slot = reloc.slot
  · rw [immBehind_written linked (if_pos own), immOf, show 8 * slot + 4 = reloc.offset.toNat + 4 by
      rw [own, Relocation.slot]; omega]
    exact slice_overwrite width fits
  · rw [immBehind_unwritten fun link same => by cases linked.symm.trans same; exact own, immBehind, immOf, immOf]
    refine slice_overwrite_apart fits ?_
    unfold Relocation.slot at own
    omega

theorem dataStep_writes (checks : Bool) (data : Table (Int64 × Nat)) :
    WritesLink (dataLink data) (dataStep checks data) := by
  intro bytes reloc patched bounded stepped
  obtain ⟨symbol, base, len, addr, found, named, added, rfl⟩ := dataStep_ok bounded stepped
  have inside := found.inside
  have aligned := found.slot
  dsimp only at inside aligned
  have place : 8 * reloc.slot = reloc.offset.toNat := by
    rw [Relocation.slot]
    omega
  have linked : dataLink data reloc = some (.address base) := by
    rw [dataLink, found.symbol, Option.bind_some, named, Option.map_some]
  have sum : base + leValue (immBehind (dataLink data) bytes [] reloc.slot ++ [0, 0, 0, 0]) = addr := by
    rw [immBehind, immOf, place]
    apply Int64.toInt_inj.mp
    have exact := checkedI64_eq_some.mp added
    have lower := Int64.le_toInt addr
    have upper := toInt_upper addr
    rw [toInt_add (by omega) (by omega), exact]
  have low : ((leBytes addr 8).take 4).length = 4 := by simp
  have high : ((leBytes addr 8).drop 4).length = 4 := by simp
  have fits : reloc.offset.toNat + 4 + ((leBytes addr 8).take 4).length ≤ bytes.length := by omega
  have same := length_overwrite fits
  have fits' : reloc.offset.toNat + 8 + 4 + ((leBytes addr 8).drop 4).length ≤
      (overwrite bytes (reloc.offset.toNat + 4) ((leBytes addr 8).take 4)).length := by omega
  refine ⟨fun k head => ?_, fun slot => ?_⟩
  · rw [getElem?_overwrite fits' (by omega), getElem?_overwrite fits (by omega)]
  by_cases own : slot = reloc.slot
  · subst own
    have written := LinkTo.writes_low base reloc.slot (immBehind (dataLink data) bytes [] reloc.slot)
    rw [sum] at written
    rw [immBehind_written linked written, immOf, place, slice_overwrite_apart fits' (by omega)]
    exact slice_overwrite low fits
  by_cases next : slot = reloc.slot + 1
  · subst next
    have written := LinkTo.writes_high base reloc.slot (immBehind (dataLink data) bytes [] reloc.slot)
    rw [sum] at written
    rw [immBehind_written linked written, immOf, show 8 * (reloc.slot + 1) + 4 = reloc.offset.toNat + 8 + 4 by omega]
    exact slice_overwrite high fits'
  · rw [immBehind_unwritten fun link found => by cases linked.symm.trans found; exact fun reached => reached.elim own next,
      immBehind, immOf, immOf, slice_overwrite_apart fits' (by omega), slice_overwrite_apart fits (by omega)]

theorem linkStep_writes (checks : Bool) (mapFds : Table Int32) (data : Table (Int64 × Nat)) :
    WritesLink (linkTo mapFds data) (linkStep checks mapFds data) := by
  intro bytes reloc patched bounded stepped
  unfold linkStep at stepped
  split at stepped
  · rename_i staged
    obtain ⟨heads, written⟩ := dataStep_writes checks data _ _ _ bounded stepped
    refine ⟨heads, fun slot => (written slot).trans ?_⟩
    have kind : linkTo mapFds data reloc = dataLink data reloc := if_pos staged
    simp only [immBehind, kind]
  · rename_i mapped
    obtain ⟨heads, written⟩ := mapStep_writes checks mapFds _ _ _ bounded stepped
    refine ⟨heads, fun slot => (written slot).trans ?_⟩
    have kind : linkTo mapFds data reloc = mapLink mapFds reloc := if_neg mapped
    simp only [immBehind, kind]

theorem linkStep_inPlace (checks : Bool) (mapFds : Table Int32) (data : Table (Int64 × Nat)) :
    InPlace (linkStep checks mapFds data) := by
  intro bytes reloc patched bounded stepped
  unfold linkStep at stepped
  split at stepped
  · exact dataStep_inPlace checks data _ _ _ bounded stepped
  · exact mapStep_inPlace checks mapFds _ _ _ bounded stepped

theorem resolveLoop_congr {step' : Bytes → Relocation → Except Stop Bytes}
    (same : ∀ reloc ∈ relocs, ∀ bytes, step bytes reloc = step' bytes reloc) :
    resolveLoop step bytes relocs = resolveLoop step' bytes relocs := by
  induction relocs generalizing bytes with
  | nil => rfl
  | cons reloc relocs ih =>
    rw [resolveLoop, resolveLoop, same reloc List.mem_cons_self]
    cases step' bytes reloc with
    | error stop => rfl
    | ok patched => exact ih fun other present => same other (List.mem_cons_of_mem reloc present)

theorem resolveLoop_append_error {more : List Relocation} (stopped : (resolveLoop step bytes relocs).2 = .error stop) :
    resolveLoop step bytes (relocs ++ more) = resolveLoop step bytes relocs := by
  induction relocs generalizing bytes with
  | nil => cases stopped
  | cons reloc relocs ih =>
    rw [List.cons_append, resolveLoop, resolveLoop]
    rw [resolveLoop] at stopped
    cases stepped : step bytes reloc with
    | error stop => rfl
    | ok patched =>
      rw [stepped] at stopped
      exact ih stopped

theorem ElfProgram.eq_iff {prog' : ElfProgram} :
    prog = prog' ↔ prog.bytes = prog'.bytes ∧ prog.relocations = prog'.relocations := by
  cases prog
  cases prog'
  rw [ElfProgram.mk.injEq]

theorem atomic_iff {α : Type} {resolver : α → ElfProgram → ElfProgram × Except Stop Unit} {tables : α} :
    Atomic resolver tables prog ↔
      ∀ e, (resolver tables prog).2 = .error (.refused e) → (resolver tables prog).1 = prog := by
  refine ⟨fun atomic e refused => (atomic e refused).1, fun unchanged e refused => ⟨unchanged e refused, ?_⟩⟩
  intro completed
  rw [unchanged e refused]

theorem resolve_atomic_iff {α : Type} {step : α → Bytes → Relocation → Except Stop Bytes} (tables : α)
    (writes : WritesLink links (step tables)) (inPlace : ∀ tables, InPlace (step tables)) :
    Atomic (fun tables prog => prog.resolve (step tables) (inPlace tables)) tables prog ↔
      Harmless links (step tables) prog.bytes prog.relocations := by
  rw [atomic_iff, resolveLoop_harmless_iff writes (inPlace tables) prog.bounded]
  refine forall_congr' fun e => imp_congr_right fun _ => ?_
  rw [ElfProgram.eq_iff]
  exact and_iff_left rfl

/-- Linking runs one loop over the relocations in its order. -/
theorem resolveAllRelocs_eq
    (unambiguous : ∀ reloc ∈ prog.relocations, (reloc.named mapFds && reloc.named data) = false) :
    (resolveAllRelocs checks mapFds data prog).2 =
        (resolveLoop (linkStep checks mapFds data) prog.bytes (linkOrder data prog.relocations)).2 ∧
      (resolveAllRelocs checks mapFds data prog).1.bytes =
        (resolveLoop (linkStep checks mapFds data) prog.bytes (linkOrder data prog.relocations)).1 ∧
      ((resolveAllRelocs checks mapFds data prog).2 ≠ .error .panicked →
        (resolveAllRelocs checks mapFds data prog).1.relocations = prog.relocations) := by
  have maps : resolveLoop (linkStep checks mapFds data) prog.bytes
      (prog.relocations.filter fun reloc => !reloc.named data) = resolveLoop (mapStep checks mapFds) prog.bytes
      (prog.relocations.filter fun reloc => !reloc.named data) :=
    resolveLoop_congr fun reloc present bytes => if_neg (by simpa using (List.mem_filter.mp present).2)
  have staged : ∀ bytes, resolveLoop (linkStep checks mapFds data) bytes
      (prog.relocations.filter fun reloc => reloc.named data) = resolveLoop (dataStep checks data) bytes
      (prog.relocations.filter fun reloc => reloc.named data) := fun bytes =>
    resolveLoop_congr fun reloc present bytes => if_pos (List.mem_filter.mp present).2
  have none : (prog.relocations.find? fun reloc => reloc.named mapFds && reloc.named data) = none :=
    List.find?_eq_none.mpr fun reloc present both => Bool.false_ne_true (unambiguous reloc present ▸ both)
  unfold resolveAllRelocs linkOrder
  rw [none]
  dsimp only
  cases mapped : (resolveMapRelocs checks mapFds
      { prog with relocations := prog.relocations.filter fun reloc => !reloc.named data }).2 with
  | error stop =>
    rw [resolveLoop_append_error ((congrArg Prod.snd maps).trans mapped), maps]
    cases stop with
    | refused e => exact ⟨mapped.symm, rfl, fun _ => rfl⟩
    | panicked => exact ⟨mapped.symm, rfl, fun total => absurd rfl total⟩
  | ok =>
    rw [resolveLoop_append (maps.trans (Prod.ext rfl mapped)), staged]
    dsimp only
    split
    · rename_i panicked
      exact ⟨rfl, rfl, fun total => absurd panicked total⟩
    · exact ⟨rfl, rfl, fun _ => rfl⟩

theorem resolveAllRelocs_atomic_iff : Atomic (fun tables => resolveAllRelocs checks tables.1 tables.2) (mapFds, data) prog ↔
    ((∀ reloc ∈ prog.relocations, (reloc.named mapFds && reloc.named data) = false) →
      Harmless (linkTo mapFds data) (linkStep checks mapFds data) prog.bytes (linkOrder data prog.relocations)) := by
  rw [atomic_iff]
  by_cases unambiguous : ∀ reloc ∈ prog.relocations, (reloc.named mapFds && reloc.named data) = false
  · obtain ⟨outcome, bytes, relocs⟩ := @resolveAllRelocs_eq checks mapFds data prog unambiguous
    rw [forall_prop_of_true unambiguous, resolveLoop_harmless_iff (linkStep_writes checks mapFds data)
      (linkStep_inPlace checks mapFds data) prog.bounded]
    refine forall_congr' fun e => ?_
    rw [outcome]
    refine imp_congr_right fun refused => ?_
    rw [ElfProgram.eq_iff, bytes]
    refine and_iff_left (relocs ?_)
    rw [outcome, refused]
    exact fun same => by cases same
  · refine iff_of_true (fun e _ => ?_) fun all => absurd all unambiguous
    cases found : prog.relocations.find? fun reloc => reloc.named mapFds && reloc.named data with
    | none =>
      refine absurd (fun reloc present => ?_) unambiguous
      exact Bool.eq_false_iff.mpr (List.find?_eq_none.mp found reloc present)
    | some reloc => rw [resolveAllRelocs, found]

/-- A link that fails leaves the program as it was exactly where, of the relocations it accepted before the
refused one, the last to write each immediate writes what was there. -/
theorem resolvers_atomic_iff (checks : Bool) (mapFds : Table Int32) (data : Table (Int64 × Nat)) (prog : ElfProgram) :
    (Atomic (resolveMapRelocs checks) mapFds prog ↔
      Harmless (mapLink mapFds) (mapStep checks mapFds) prog.bytes prog.relocations) ∧
    (Atomic (resolveDataRelocs checks) data prog ↔
      Harmless (dataLink data) (dataStep checks data) prog.bytes prog.relocations) ∧
    (Atomic (fun tables => resolveAllRelocs checks tables.1 tables.2) (mapFds, data) prog ↔
      ((∀ reloc ∈ prog.relocations, (reloc.named mapFds && reloc.named data) = false) →
        Harmless (linkTo mapFds data) (linkStep checks mapFds data) prog.bytes (linkOrder data prog.relocations))) :=
  ⟨resolve_atomic_iff mapFds (mapStep_writes checks mapFds) (mapStep_inPlace checks),
    resolve_atomic_iff data (dataStep_writes checks data) (dataStep_inPlace checks), resolveAllRelocs_atomic_iff⟩

/-- Two wide loads, of which the second relocation has no entry. -/
theorem partial_link :
    (¬∀ (prog : ElfProgram) (tables : Table Int32 × Table (Int64 × Nat)),
      Atomic (fun tables => resolveAllRelocs true tables.1 tables.2) tables prog) ∧
    ¬∀ (prog : ElfProgram) (data : Table (Int64 × Nat)), Atomic (resolveDataRelocs true) data prog := by
  refine ⟨fun claim => ?_, fun claim => ?_⟩
  · have atomic := claim ⟨[0x18, 1, 0, 0, 0, 0, 0, 0, 0, 0, 0, 0, 0, 0, 0, 0, 0x18, 2, 0, 0, 0, 0, 0, 0, 0, 0, 0, 0, 0, 0, 0, 0],
      [⟨0, some "m", some 1⟩, ⟨16, some "n", some 1⟩], by decide⟩
      (fun name => if name = "m" then some 1 else none, fun _ => none)
    have same := congrArg ElfProgram.bytes (atomic (.unresolvedMapSymbol "n" 16) rfl).1
    exact absurd same (by decide)
  · have atomic := claim ⟨[0x18, 1, 0, 0, 0, 0, 0, 0, 0, 0, 0, 0, 0, 0, 0, 0, 0x18, 2, 0, 0, 0, 0, 0, 0, 0, 0, 0, 0, 0, 0, 0, 0],
      [⟨0, some ".rodata", some 1⟩, ⟨16, some ".bss", some 1⟩], by decide⟩
      (fun name => if name = ".rodata" then some (0x50000, 8) else none)
    have again := congrArg (fun outcome => outcome.1.bytes)
      ((atomic (.unresolvedDataSymbol ".bss" 16) rfl).2 fun _ => some (0x50000, 8))
    exact absurd again (by decide)

end EbpfLab.Elf
