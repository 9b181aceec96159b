import EbpfLab.Verifier.HelperSound
import EbpfLab.Verifier.MemoryRun

/-!
# Map descriptors

The table the verifier looks map descriptors up in and the interpreter's table of stores name the same
maps, whatever the operations on the stores.
-/

namespace EbpfLab.Verifier
open Isa Interp Library

variable {config : VerifyConfig} {stores : Stores} {s : VerifierState} {w : World}

/-- An operation on the store behind a descriptor, if there is one. -/
def operate (w : World) (request : Int64 × MapOp) : World :=
  match w.mapStore request.1 with
  | some store => w.setStore request.1 ⟨store.desc, (store.data.step request.2).2⟩
  | none => w

theorem operate_sameMaps (w : World) (request : Int64 × MapOp) : SameMaps w (operate w request) := by
  unfold operate
  split
  · rename_i store found
    exact setStore_sameMaps found _
  · exact fun _ => rfl

theorem operations_sameMaps (w : World) (requests : List (Int64 × MapOp)) :
    SameMaps w (requests.foldl operate w) := by
  induction requests generalizing w with
  | nil => exact fun _ => rfl
  | cons request rest ih => exact fun fd => (ih (operate w request) fd).trans (operate_sameMaps w request fd)

/-- The table of a configuration without maps binds no descriptor. -/
theorem mapDesc_unmapped (table : s.maps = buildMapTable config) (unmapped : config.maps = []) (fd : Int64) :
    mapDesc s fd = none := by
  have empty : buildMapTable config = [none] := by
    unfold buildMapTable
    rw [unmapped]
    rfl
  unfold mapDesc
  rw [table, empty]
  cases usizeOf fd with
  | none => rfl
  | some i => cases i <;> rfl

/-- Every descriptor names the same map for the verifier and for the interpreter, or none for either,
after any operations on the stores. -/
theorem fds_resolve_alike (built : buildStores config.maps = .ok stores) (table : s.maps = buildMapTable config)
    (live : w.maps = stores) (requests : List (Int64 × MapOp)) (fd : Int64) :
    ((requests.foldl operate w).mapStore fd).map (·.desc) = mapDesc s fd := by
  rw [operations_sameMaps w requests fd]
  by_cases mapped : config.maps = []
  · rw [mapDesc_unmapped table mapped]
    rw [mapped] at built
    cases built
    unfold World.mapStore
    rw [live]
    cases usizeOf fd <;> rfl
  · refine mapStore_desc ?_ fd
    rw [live, table, buildMapTable_eq built mapped]
    rfl

theorem fds_resolve_alike_update :
    (([(1, .update [0, 0, 0, 0] [0, 0, 0, 0, 0, 0, 0, 1] 0)].foldl operate
        ⟨.default, Setup.oneMap.stores⟩).mapStore 1).map (·.desc) =
      mapDesc (VerifierState.initialWithMaps (buildMapTable oneMap)) 1 :=
  fds_resolve_alike Setup.oneMap.built rfl rfl _ 1

end EbpfLab.Verifier
