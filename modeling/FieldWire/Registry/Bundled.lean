import FieldWire.Registry.BundledSchema
import FieldWire.Registry.Load

/-!
# The bundled registry

The registry of the bundled schema, which the default codec uses.
-/

namespace FieldWire.Registry

/-- The registry without fields, which stands for a schema that cannot be loaded. -/
def empty : Registry := ⟨[], [], ⟨[]⟩, ⟨[]⟩, ⟨[]⟩⟩

/-- The registry of the bundled schema. -/
def bundled : Registry :=
  match load Bundled.schema with
  | .ok registry => registry
  | .error _ => empty

end FieldWire.Registry
