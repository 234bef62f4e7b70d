import PackageManifest.Json.Number

/-!
# JSON values

A value keeps the fields of an object in the order in which they are written, repeated names
included.
-/

namespace PackageManifest

/-- A text is missing where a string holds half a surrogate pair, which no text can. A number is a
significand and the power of ten it is multiplied by. -/
inductive Json where
  | null
  | bool (value : Bool)
  | number (significand : Nat) (exponent : Int)
  | string (text : Option String)
  | array (items : List Json)
  | object (fields : List (Option String × Json))
  deriving Repr, Inhabited

namespace Json

def ofString (s : String) : Json := string (some s)

mutual

def depth : Json → Nat
  | array items => depthList items + 1
  | object fields => depthFields fields + 1
  | _ => 0

def depthList : List Json → Nat
  | [] => 0
  | item :: items => max item.depth (depthList items)

def depthFields : List (Option String × Json) → Nat
  | [] => 0
  | (_, item) :: fields => max item.depth (depthFields fields)

end

mutual

/-- Whether every string of a value is a text and every number is in range. -/
def isPlain : Json → Bool
  | number significand exponent => numberInRange significand exponent
  | string text => text.isSome
  | array items => isPlainList items
  | object fields => isPlainFields fields
  | _ => true

def isPlainList : List Json → Bool
  | [] => true
  | item :: items => item.isPlain && isPlainList items

def isPlainFields : List (Option String × Json) → Bool
  | [] => true
  | (name, item) :: fields => name.isSome && item.isPlain && isPlainFields fields

end

end Json

end PackageManifest
