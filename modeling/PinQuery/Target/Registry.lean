import PinQuery.Target.Listing
import PinQuery.Target.Script
import PinQuery.Target.Sketch

/-!
# Registries

A registry holds renderers under their names, in the order of the names. A renderer takes the place
of an earlier one of the same name.
-/

namespace PinQuery

/-- Renderers with different names, in the order of their names. -/
structure Registry where
  renderers : List Renderer
  increasing : renderers.Pairwise (·.name < ·.name)

namespace Registry

/-- The registry without renderers. -/
def empty : Registry := ⟨[], .nil⟩

/-- The registry with one more renderer, in place of one with the same name. -/
def register (registry : Registry) (renderer : Renderer) : Registry :=
  ⟨insertBy Renderer.name renderer registry.renderers,
    pairwise_insertBy renderer registry.increasing⟩

/-- The renderer under a name. -/
def get? (registry : Registry) (name : String) : Option Renderer :=
  registry.renderers.find? fun renderer => renderer.name == name

/-- The names of the renderers. -/
def names (registry : Registry) : OrderedSet String :=
  ⟨registry.renderers.map Renderer.name, List.pairwise_map.2 registry.increasing⟩

/-- Sketches under two names, scripts and listings. -/
def builtin : Registry :=
  [Sketch.renderer "arduino", Sketch.renderer "board", Script.renderer, Listing.renderer].foldl
    register empty

end Registry

end PinQuery
