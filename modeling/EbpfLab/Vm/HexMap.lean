import EbpfLab.Library.Outcome
import EbpfLab.Vm.Maps

/-!
# The hex codec of initial entries

`hex_map` of `ebpf-vm`. A string is its UTF-8 bytes here. The decoder takes digits of both cases, so
two strings of an object may name one key.
-/

namespace EbpfLab.Interp
open Isa Library

variable {s t text : Bytes} {bytes : Bytes} {map : OrdMap Bytes Bytes} {object : List (Bytes × Bytes)}

/-- `BadHex`, with its text. -/
structure BadHex where
  text : Bytes
  deriving DecidableEq, Repr

/-- `hex_val`. -/
def hexVal (b : UInt8) : Option UInt8 :=
  if '0'.toUInt8 ≤ b ∧ b ≤ '9'.toUInt8 then some (b - '0'.toUInt8)
  else if 'a'.toUInt8 ≤ b ∧ b ≤ 'f'.toUInt8 then some (b - 'a'.toUInt8 + 10)
  else if 'A'.toUInt8 ≤ b ∧ b ≤ 'F'.toUInt8 then some (b - 'A'.toUInt8 + 10)
  else none

/-- The pairs of digits of a string. -/
def decodePairs (text : Bytes) : Bytes → Except BadHex Bytes
  | hi :: lo :: rest =>
    match hexVal hi, hexVal lo with
    | some hi, some lo => (decodePairs text rest).map ((hi <<< 4 ||| lo) :: ·)
    | _, _ => .error ⟨text⟩
  | _ => .ok []

/-- `from_hex`. -/
def fromHex (s : Bytes) : Except BadHex Bytes :=
  if s.length % 2 ≠ 0 then .error ⟨"odd length: ".toUTF8.toList ++ s⟩ else decodePairs s s

/-- An upper-case hex digit. -/
def hexDigit (n : UInt8) : UInt8 := if n < 10 then '0'.toUInt8 + n else 'A'.toUInt8 + (n - 10)

/-- `to_hex`. -/
def toHex (bytes : Bytes) : Bytes := bytes.flatMap fun (b : UInt8) => [hexDigit (b >>> 4), hexDigit (b &&& 15)]

namespace HexMap

/-- `hex_map::serialize`: the entries of the object written. -/
def serialize (map : OrdMap Bytes Bytes) : List (Bytes × Bytes) :=
  map.entries.map fun e => (toHex e.1, toHex e.2)

/-- Both strings of an entry, decoded. -/
def decodeEntry (e : Bytes × Bytes) : Except BadHex (Bytes × Bytes) := do
  let key ← fromHex e.1
  let value ← fromHex e.2
  .ok (key, value)

/-- `hex_map::deserialize` of an object's entries: a map of strings, then of what they decode to. -/
def deserialize (object : List (Bytes × Bytes)) : Except BadHex (OrdMap Bytes Bytes) :=
  ((OrdMap.ofList object).entries.mapM decodeEntry).map OrdMap.ofList

end HexMap

/-! ### Digits -/

/-- A hex digit in upper case. -/
def upper (b : UInt8) : UInt8 := if 'a'.toUInt8 ≤ b ∧ b ≤ 'f'.toUInt8 then b - 32 else b

/-- A string of an even number of hex digits. -/
def isHex (s : Bytes) : Bool := s.length % 2 == 0 && s.all fun b => (hexVal b).isSome

theorem forall_byte {p : UInt8 → Prop} (each : ∀ i : Fin 256, p (UInt8.ofFin i)) (b : UInt8) : p b :=
  each b.toFin

theorem hexVal_hexDigit : ∀ b : UInt8, hexVal (hexDigit (b >>> 4)) = some (b >>> 4) ∧
    hexVal (hexDigit (b &&& 15)) = some (b &&& 15) :=
  forall_byte (by decide +kernel)

theorem join_halves : ∀ b : UInt8, (b >>> 4) <<< 4 ||| (b &&& 15) = b := forall_byte (by decide +kernel)

/-- A digit is that of its value in upper case. -/
theorem hexVal_cases : ∀ b : UInt8, hexVal b = none ∨ ∃ i : Fin 16, hexVal b = some (UInt8.ofNat i) ∧
    hexDigit (UInt8.ofNat i) = upper b :=
  forall_byte (by decide +kernel)

theorem split_join : ∀ i j : Fin 16,
    (UInt8.ofNat i <<< 4 ||| UInt8.ofNat j) >>> 4 = UInt8.ofNat i ∧
      (UInt8.ofNat i <<< 4 ||| UInt8.ofNat j) &&& 15 = UInt8.ofNat j := by
  decide

/-! ### Strings -/

/-- A string that decodes is the encoding up to the case of its digits. -/
theorem decodePairs_ok (text : Bytes) {rest : Bytes} (even : rest.length % 2 = 0) :
    (∃ bytes, decodePairs text rest = .ok bytes ∧ toHex bytes = rest.map upper) ∧
        (rest.all fun b => (hexVal b).isSome) = true ∨
      decodePairs text rest = .error ⟨text⟩ ∧ (rest.all fun b => (hexVal b).isSome) = false := by
  induction rest using List.twoStepInduction with
  | nil => exact Or.inl ⟨⟨[], rfl, rfl⟩, rfl⟩
  | singleton b => cases even
  | cons_cons hi lo rest ih _ =>
    unfold decodePairs
    rcases hexVal_cases hi with bad | ⟨i, high, shown⟩
    · exact Or.inr ⟨by rw [bad], by simp [bad]⟩
    rcases hexVal_cases lo with bad | ⟨j, low, shown'⟩
    · exact Or.inr ⟨by rw [high, bad], by simp [bad]⟩
    rw [high, low]
    have even' : rest.length % 2 = 0 := by
      rw [List.length_cons, List.length_cons] at even
      omega
    rcases ih even' with ⟨⟨bytes, decoded, same⟩, digits⟩ | ⟨refused, bad⟩
    · refine Or.inl ⟨⟨_, by rw [decoded]; rfl, ?_⟩, by simpa [high, low] using digits⟩
      obtain ⟨first, second⟩ := split_join i j
      rw [toHex, List.flatMap_cons, first, second, shown, shown']
      exact congrArg (upper hi :: upper lo :: ·) same
    · exact Or.inr ⟨by rw [refused]; rfl, by simpa [high, low] using bad⟩

theorem fromHex_ok (hex : isHex s) : ∃ bytes, fromHex s = .ok bytes ∧ toHex bytes = s.map upper := by
  obtain ⟨even, digits⟩ := Bool.and_eq_true_iff.mp hex
  have whole := beq_iff_eq.mp even
  unfold fromHex
  rw [if_neg (by omega)]
  rcases decodePairs_ok s whole with ⟨decoded, _⟩ | ⟨_, bad⟩
  · exact decoded
  · rw [bad] at digits
    cases digits

theorem fromHex_error (bad : isHex s = false) : ∃ e, fromHex s = .error e := by
  unfold fromHex
  by_cases odd : s.length % 2 ≠ 0
  · exact ⟨_, if_pos odd⟩
  · have even : s.length % 2 = 0 := by omega
    rw [if_neg odd]
    rcases decodePairs_ok s even with ⟨_, digits⟩ | ⟨refused, _⟩
    · rw [isHex, digits, even] at bad
      cases bad
    · exact ⟨_, refused⟩

theorem fromHex_toHex (bytes : Bytes) : fromHex (toHex bytes) = .ok bytes := by
  have even : (toHex bytes).length % 2 = 0 := by simp [toHex]
  have decoded : ∀ text bytes : Bytes, decodePairs text (toHex bytes) = .ok bytes := by
    intro text bytes
    induction bytes with
    | nil => rfl
    | cons b rest ih =>
      rw [toHex, List.flatMap_cons, List.cons_append, List.cons_append, List.nil_append, decodePairs,
        (hexVal_hexDigit b).1, (hexVal_hexDigit b).2]
      rw [toHex] at ih
      dsimp only
      rw [ih, join_halves]
      rfl
  unfold fromHex
  rw [if_neg (by rw [even]; decide), decoded]

/-- Strings decode to the same bytes exactly when they differ in the case of their digits only. -/
theorem fromHex_eq_iff {x y : Bytes} (left : fromHex s = .ok x) (right : fromHex t = .ok y) :
    x = y ↔ s.map upper = t.map upper := by
  have shown : ∀ {s x : Bytes}, fromHex s = .ok x → toHex x = s.map upper := by
    intro s x decoded
    cases hex : isHex s with
    | true =>
      obtain ⟨bytes, found, same⟩ := fromHex_ok hex
      obtain rfl := Except.ok.inj (decoded.symm.trans found)
      exact same
    | false =>
      obtain ⟨e, refused⟩ := fromHex_error hex
      rw [refused] at decoded
      cases decoded
  rw [← shown left, ← shown right]
  refine ⟨congrArg toHex, fun same => ?_⟩
  have back := fromHex_toHex x
  rw [same, fromHex_toHex] at back
  exact (Except.ok.inj back).symm

/-! ### Objects -/

namespace HexMap

/-- An object from whose entries none is lost: it is refused, or the map has as many entries and the
decoded pair of each. -/
def Survives (object : List (Bytes × Bytes)) : Prop :=
  (∃ e, deserialize object = .error e) ∨ ∃ map, deserialize object = .ok map ∧
    map.entries.length = object.length ∧ ∀ entry ∈ object, ∃ key value,
      fromHex entry.1 = .ok key ∧ fromHex entry.2 = .ok value ∧ (key, value) ∈ map.entries

/-- What a hex string decodes to. -/
def decoded (s : Bytes) : Bytes := (fromHex s).toOption.getD []

theorem fromHex_decoded (hex : isHex s) : fromHex s = .ok (decoded s) := by
  obtain ⟨bytes, found, _⟩ := fromHex_ok hex
  rw [decoded, found]
  rfl

theorem decodeAll_ok {entries : List (Bytes × Bytes)} (hex : ∀ e ∈ entries, isHex e.1 ∧ isHex e.2) :
    entries.mapM decodeEntry = .ok (entries.map fun e => (decoded e.1, decoded e.2)) := by
  induction entries with
  | nil => rfl
  | cons e rest ih =>
    obtain ⟨key, value⟩ := hex e List.mem_cons_self
    rw [List.mapM_cons, ih fun e later => hex e (List.mem_cons_of_mem _ later), decodeEntry,
      fromHex_decoded key, fromHex_decoded value]
    rfl

theorem decodeAll_error {entries : List (Bytes × Bytes)} {bad : Bytes × Bytes} (present : bad ∈ entries)
    (malformed : ¬ (isHex bad.1 ∧ isHex bad.2)) : ∃ e, entries.mapM decodeEntry = .error e := by
  cases ran : entries.mapM decodeEntry with
  | error e => exact ⟨e, rfl⟩
  | ok out =>
    obtain ⟨i, found⟩ := List.mem_iff_getElem?.mp present
    obtain ⟨_, each⟩ := mapM_eq_ok ran
    obtain ⟨pair, decodes, _⟩ := each i bad found
    obtain ⟨key, left, decodes⟩ := bind_eq_ok.mp decodes
    obtain ⟨value, right, _⟩ := bind_eq_ok.mp decodes
    refine absurd ⟨?_, ?_⟩ malformed
    · by_contra odd
      obtain ⟨e, refused⟩ := fromHex_error (by simpa using odd)
      rw [refused] at left
      cases left
    · by_contra odd
      obtain ⟨e, refused⟩ := fromHex_error (by simpa using odd)
      rw [refused] at right
      cases right

theorem isHex_toHex (bytes : Bytes) : isHex (toHex bytes) := by
  by_contra odd
  obtain ⟨e, refused⟩ := fromHex_error (by simpa using odd)
  rw [fromHex_toHex] at refused
  cases refused

theorem decoded_toHex (bytes : Bytes) : decoded (toHex bytes) = bytes := by
  unfold decoded
  rw [fromHex_toHex]
  rfl

/-- Objects of hex strings with distinct keys decode entry by entry. -/
theorem deserialize_hex (distinct : (object.map Prod.fst).Nodup) (hex : ∀ e ∈ object, isHex e.1 ∧ isHex e.2) :
    ∃ out, deserialize object = .ok (OrdMap.ofList out) ∧
      out.Perm (object.map fun e => (decoded e.1, decoded e.2)) := by
  have listed := OrdMap.ofList_perm distinct
  refine ⟨_, ?_, listed.map _⟩
  unfold deserialize
  rw [decodeAll_ok fun e present => hex e (listed.subset present)]
  rfl

theorem deserialize_serialize (map : OrdMap Bytes Bytes) : deserialize (serialize map) = .ok map := by
  have injective : Function.Injective toHex := fun x y same => by
    rw [← decoded_toHex x, same, decoded_toHex]
  have keys : (serialize map).map Prod.fst = (map.entries.map Prod.fst).map toHex := by
    unfold serialize
    rw [List.map_map, List.map_map]
    rfl
  have distinct : ((serialize map).map Prod.fst).Nodup := by
    rw [keys]
    exact (OrdMap.keys_nodup map).map injective
  have hex : ∀ e ∈ serialize map, isHex e.1 ∧ isHex e.2 := by
    intro e present
    obtain ⟨entry, _, rfl⟩ := List.mem_map.mp present
    exact ⟨isHex_toHex _, isHex_toHex _⟩
  obtain ⟨out, decoded_, perm⟩ := deserialize_hex distinct hex
  have same : (serialize map).map (fun e => (decoded e.1, decoded e.2)) = map.entries := by
    unfold serialize
    rw [List.map_map]
    exact (List.map_congr_left fun e _ => by simp [decoded_toHex]).trans (List.map_id _)
  rw [same] at perm
  have kept : (out.map Prod.fst).Nodup := (perm.map Prod.fst).nodup_iff.mpr (OrdMap.keys_nodup map)
  rw [decoded_, OrdMap.ext_perm ((OrdMap.ofList_perm kept).trans perm)]

/-- Keys decode to distinct bytes when no two are equal up to case. -/
theorem decoded_nodup (hex : ∀ e ∈ object, isHex e.1 ∧ isHex e.2) :
    ((object.map fun e => (decoded e.1, decoded e.2)).map Prod.fst).Nodup ↔
      (object.map fun e => e.1.map upper).Nodup := by
  rw [List.map_map]
  unfold List.Nodup
  rw [List.pairwise_map, List.pairwise_map]
  refine List.Pairwise.iff_of_mem fun {a b} left right => not_congr ?_
  exact fromHex_eq_iff (fromHex_decoded (hex a left).1) (fromHex_decoded (hex b right).1)

/-- The serialized form of a map deserializes to it; of an object with distinct keys no entry is lost
exactly when some string is no hex string, or no two keys are equal up to the case of their digits. -/
theorem survives_iff (map : OrdMap Bytes Bytes) (object : List (Bytes × Bytes))
    (distinct : (object.map Prod.fst).Nodup) :
    deserialize (serialize map) = .ok map ∧
    (Survives object ↔ ((∀ e ∈ object, isHex e.1 ∧ isHex e.2) → (object.map fun e => e.1.map upper).Nodup)) := by
  refine ⟨deserialize_serialize map, fun survives hex => ?_, fun apart => ?_⟩
  · obtain ⟨out, decodes, perm⟩ := deserialize_hex distinct hex
    rcases survives with ⟨e, refused⟩ | ⟨map, found, long, _⟩
    · rw [decodes] at refused
      cases refused
    · obtain rfl := Except.ok.inj (decodes.symm.trans found)
      have total : out.length = object.length := by rw [perm.length_eq, List.length_map]
      have kept := OrdMap.ofList_length.mp (long.trans total.symm)
      exact (decoded_nodup hex).mp ((perm.map Prod.fst).nodup_iff.mp kept)
  · by_cases hex : ∀ e ∈ object, isHex e.1 ∧ isHex e.2
    · obtain ⟨out, decodes, perm⟩ := deserialize_hex distinct hex
      have kept := (perm.map Prod.fst).nodup_iff.mpr ((decoded_nodup hex).mpr (apart hex))
      have whole := (OrdMap.ofList_perm kept).trans perm
      refine Or.inr ⟨_, decodes, by rw [whole.length_eq, List.length_map], fun e present => ?_⟩
      exact ⟨_, _, fromHex_decoded (hex e present).1, fromHex_decoded (hex e present).2,
        whole.mem_iff.mpr (List.mem_map.mpr ⟨e, present, rfl⟩)⟩
    · obtain ⟨bad, malformed⟩ := not_forall.mp hex
      obtain ⟨present, malformed⟩ := Classical.not_imp.mp malformed
      obtain ⟨e, refused⟩ := decodeAll_error ((OrdMap.ofList_perm distinct).symm.subset present) malformed
      exact Or.inl ⟨e, by rw [deserialize, refused]; rfl⟩

/-- `{"0a": "01", "0B": "02"}` beside the empty map. -/
theorem survives_iff_two :
    deserialize (serialize OrdMap.empty) = .ok OrdMap.empty ∧
    (Survives [([48, 97], [48, 49]), ([48, 66], [48, 50])] ↔
      ((∀ e ∈ [(([48, 97], [48, 49]) : Bytes × Bytes), ([48, 66], [48, 50])], isHex e.1 ∧ isHex e.2) →
        ([(([48, 97], [48, 49]) : Bytes × Bytes), ([48, 66], [48, 50])].map fun e => e.1.map upper).Nodup)) :=
  survives_iff OrdMap.empty [([48, 97], [48, 49]), ([48, 66], [48, 50])] (by decide)

/-- Of `{"0A": "02", "0a": "01"}` one entry is lost. -/
theorem entry_lost : ¬ ∀ (map : OrdMap Bytes Bytes) (object : List (Bytes × Bytes)),
    (object.map Prod.fst).Nodup → deserialize (serialize map) = .ok map ∧ Survives object := by
  intro holds
  have result : deserialize [([48, 65], [48, 50]), ([48, 97], [48, 49])] = .ok (OrdMap.ofList [([10], [1])]) := by
    decide
  rcases (holds OrdMap.empty [([48, 65], [48, 50]), ([48, 97], [48, 49])] (by decide)).2 with
    ⟨e, refused⟩ | ⟨map, found, long, _⟩
  · rw [result] at refused
    cases refused
  · obtain rfl := Except.ok.inj (result.symm.trans found)
    exact absurd long (by decide)

end HexMap
end EbpfLab.Interp
