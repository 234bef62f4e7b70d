import PackageManifest.Text.Basic
import PackageManifest.Text.Blank
import PackageManifest.Text.LowerCase

/-!
# Repositories

Where a package comes from: its location as it is written in a manifest, the name it has if none is
given, and the form in which two locations are compared.
-/

namespace PackageManifest.Repository

def gitSuffix : List Char := ['.', 'g', 'i', 't']

def stripGit (cs : List Char) : List Char := (Text.before? gitSuffix cs).getD cs

def stripSlashes (cs : List Char) : List Char := Text.dropEndWhile (· == '/') cs

/-- A location is kept; `owner/name` stands for a repository of the usual host. -/
def locationOf (package : List Char) : List Char :=
  let package := Text.trim package
  if Text.startsWith "http".toList package || Text.startsWith "git@".toList package then package
  else "https://github.com/".toList ++ package

/-- What follows the last slash or colon. -/
def lastPart (cs : List Char) : List Char :=
  (cs.reverse.takeWhile fun c => c != '/' && c != ':').reverse

/-- The last part of a location, without `.git`. -/
def nameOf (location : List Char) : List Char :=
  stripGit (lastPart (stripSlashes (Text.trim location)))

/-- Two locations with the same normal form are taken for the same repository. -/
def normalForm (location : List Char) : List Char :=
  stripGit (stripSlashes (Text.lowerCase (Text.trim location)))

end PackageManifest.Repository
