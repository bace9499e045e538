import Mathlib.Data.List.Nodup

/-! The capability registry (`fetech/registry.py`), as far as planning reads it. -/
namespace Fetech

inductive CapabilityKind where
  | operation | transportFeature | variantGenerator | extractor | formatHandler | detector | policy | connector
  | storageStrategy
  deriving DecidableEq, Repr

structure CapabilityManifestEntry where
  id : String
  aliases : List String := []
  kind : CapabilityKind
  implementationAvailable : Bool := true
  deriving DecidableEq

/-- A manifest `_validate` accepts. -/
structure CapabilityRegistry where
  entries : List CapabilityManifestEntry
  uniqueIds : (entries.map (·.id)).Nodup := by decide
  uniqueAliases : (entries.flatMap (·.aliases)).Nodup := by decide
  noCollisions : ∀ entry ∈ entries, ∀ name ∈ entry.aliases, name ∉ entries.map (·.id) := by decide

namespace CapabilityRegistry
variable (registry : CapabilityRegistry)

/-- `none` is the `KeyError`. -/
def resolveId (capabilityId : String) : Option String :=
  if registry.entries.any (·.id == capabilityId) then some capabilityId
  else (registry.entries.find? (·.aliases.contains capabilityId)).map (·.id)

def get (capabilityId : String) : Option CapabilityManifestEntry := do
  let id ← registry.resolveId capabilityId
  registry.entries.find? (·.id == id)

end CapabilityRegistry

end Fetech
