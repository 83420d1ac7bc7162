import Predictive.Json
import Predictive.SortedMap

/-! The form of a JSON value in which the fields of every object stand in the order of their
keys. -/

namespace Predictive.Json

mutual

def sorted : Json → Json
  | list items => list (sortedItems items)
  | object fields => object (SortedMap.ofList (sortedFields fields)).entries
  | j => j

def sortedItems : List Json → List Json
  | [] => []
  | j :: rest => sorted j :: sortedItems rest

def sortedFields : List (String × Json) → List (String × Json)
  | [] => []
  | (k, j) :: rest => (k, sorted j) :: sortedFields rest

end

end Predictive.Json
