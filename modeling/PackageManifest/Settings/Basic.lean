import PackageManifest.Layout
import PackageManifest.Toml.Reader

/-!
# Settings

What a settings file may say: the indentation of new code, and the branch to follow where no version
of a package is known. What it leaves open is taken from the manifest.
-/

namespace PackageManifest

structure Settings where
  indentWidth : Option Nat := none
  useTabs : Option Bool := none
  branch : Option String := none
  deriving DecidableEq, Repr

namespace Settings

def standardBranch : String := "main"

/-- The indentation that the settings ask for, if they say anything about it. -/
def indentStyle? (s : Settings) : Option IndentStyle :=
  match s.indentWidth, s.useTabs with
  | none, none => none
  | width, some true => some ⟨max (width.getD IndentStyle.tabs.width) 1, true⟩
  | width, _ => some (.spaces (width.getD IndentStyle.standard.width))

def branchName (s : Settings) : String := s.branch.getD standardBranch

def isValid (s : Settings) : Bool := s.indentWidth != some 0

def width? : Toml → Option Nat
  | .integer n => if 0 ≤ n && n.toNat < Nat.pow 2 64 then some n.toNat else none
  | _ => none

def flag? : Toml → Option Bool
  | .boolean b => some b
  | _ => none

def text? : Toml → Option String
  | .string s => some s
  | _ => none

def readFields (read : Settings → String → Toml → Option Settings) (s : Settings) :
    List (String × Toml) → Option Settings
  | [] => some s
  | (key, value) :: fields =>
    match read s key value with
    | none => none
    | some s => readFields read s fields

def readFormatField (s : Settings) (key : String) (value : Toml) : Option Settings :=
  if key = "indent_width" then (width? value).map fun w => { s with indentWidth := some w }
  else if key = "use_tabs" then (flag? value).map fun b => { s with useTabs := some b }
  else none

def readFormat (s : Settings) : Toml → Option Settings
  | .table fields => readFields readFormatField s fields
  | .array (width :: tabs :: _) =>
    (readFormatField s "indent_width" width).bind fun s => readFormatField s "use_tabs" tabs
  | _ => none

def readDefaultsField (s : Settings) (key : String) (value : Toml) : Option Settings :=
  if key = "branch" then (text? value).map fun b => { s with branch := some b } else none

def readDefaults (s : Settings) : Toml → Option Settings
  | .table fields => readFields readDefaultsField s fields
  | .array (branch :: _) => readDefaultsField s "branch" branch
  | _ => none

def readSection (s : Settings) (key : String) (value : Toml) : Option Settings :=
  if key = "format" then readFormat s value
  else if key = "defaults" then readDefaults s value
  else none

/-- The settings that a text states; anything else in it is refused. -/
def parse? (text : String) : Option Settings :=
  (Toml.parse? text.toList).bind (readFields readSection {})

end Settings

end PackageManifest
