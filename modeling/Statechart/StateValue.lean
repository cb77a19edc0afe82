import Statechart.Json.Decoding

/-!
# State values

The value of a machine is the key of its active state, or one value for each region.
Two values are the same, `==`, when they have the same regions with the same values,
in whatever order.  A value is written as a string or as an object.
-/

namespace Statechart

/-- The active state of a machine, or of each of its regions. -/
inductive StateValue where
  | leaf (key : String)
  | regions (parts : OrderedMap StateValue)

namespace StateValue

instance : Inhabited StateValue := ⟨leaf ""⟩

mutual

/-- Equality that ignores the order of regions. -/
def same : StateValue → StateValue → Bool
  | .leaf a, .leaf b => a == b
  | .regions ⟨as⟩, .regions bs => as.length == bs.size && sameParts as bs
  | _, _ => false

/-- Whether every region has the same value in `bs`. -/
def sameParts : List (String × StateValue) → OrderedMap StateValue → Bool
  | [], _ => true
  | (k, a) :: as, bs =>
    (match bs.get? k with
      | some b => same a b
      | none => false) && sameParts as bs

end

instance : BEq StateValue := ⟨same⟩

/-- The value with the given regions, inserted in order. -/
def ofParts (parts : List (String × StateValue)) : StateValue := .regions (.ofList parts)

/-- The state key of a single state. -/
def leaf? : StateValue → Option String
  | .leaf key => some key
  | .regions _ => none

/-- The value of a region. -/
def region? : StateValue → String → Option StateValue
  | .leaf _, _ => none
  | .regions parts, key => parts.get? key

/-! ### Paths -/

/-- The characters before and after the first dot. -/
def splitDot : List Char → Option (List Char × List Char)
  | [] => none
  | c :: rest =>
    if c = '.' then some ([], rest)
    else (splitDot rest).map fun p => (c :: p.1, p.2)

/-- A path split at its first dot. -/
def splitPath (path : String) : Option (String × String) :=
  (splitDot path.toList).map fun p => (String.ofList p.1, String.ofList p.2)

mutual

/-- Whether a path is active: a single state matches its key, and regions match a
region's key, a dot and a path that its value matches. -/
def matchesPath : StateValue → String → Bool
  | .leaf key, path => key == path
  | .regions ⟨parts⟩, path =>
    match splitPath path with
    | some (region, rest) => partMatches parts region rest
    | none => false

/-- Whether the value of a region matches a path. -/
def partMatches : List (String × StateValue) → String → String → Bool
  | [], _, _ => false
  | (k, v) :: parts, region, rest =>
    if k = region then matchesPath v rest else partMatches parts region rest

end

/-! ### Text -/

mutual

/-- The text of a value: a key, or the regions in braces. -/
def text : StateValue → String
  | .leaf key => key
  | .regions ⟨parts⟩ => "\x7b" ++ textParts parts ++ "\x7d"

/-- Regions with commas between them. -/
def textParts : List (String × StateValue) → String
  | [] => ""
  | [(k, v)] => k ++ ": " ++ text v
  | (k, v) :: rest => k ++ ": " ++ text v ++ ", " ++ textParts rest

end

/-! ### Wire form -/

mutual

/-- The written form of a value. -/
def toJson : StateValue → Json
  | .leaf key => .string key
  | .regions ⟨parts⟩ => .object ⟨partsToJson parts⟩

/-- The written form of regions. -/
def partsToJson : List (String × StateValue) → List (String × Json)
  | [] => []
  | (k, v) :: rest => (k, toJson v) :: partsToJson rest

end

mutual

/-- The value written as a string or a map, if it is one. -/
def ofSource? : Source → Option StateValue
  | .string key => some (.leaf key)
  | .map entries _ => (partsOfSource? entries .empty).map .regions
  | _ => none

/-- The regions written as the entries of a map. -/
def partsOfSource? :
    List (String × Source) → OrderedMap StateValue → Option (OrderedMap StateValue)
  | [], acc => some acc
  | (k, s) :: rest, acc =>
    match ofSource? s with
    | some v => partsOfSource? rest (acc.insert k v)
    | none => none

end

/-- Decodes a value. -/
def decode (s : Source) : Decoded StateValue := do
  Source.check s.readFault?
  match ofSource? s with
  | some value => .ok value
  | none => .error (.data (.noAlternative "StateValue"))

/-- Decodes a finished JSON value. -/
def ofJson (j : Json) : Decoded StateValue := decode (.ofJson j)

end StateValue

end Statechart
