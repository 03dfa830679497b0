import Tenure.Text.Basic

/-!
# Paths

A path is a text of components with a slash between neighbours; one that begins with a slash is absolute. Paths are
simplified by their text alone: empty components and single dots go, and two dots take the component before them
along, or stay where nothing stands before them.
-/

set_option autoImplicit false

namespace Tenure.Path

open Text (octet)

/-- The slash between components. -/
def slash : UInt8 := octet '/'

/-- The component for the same directory. -/
def here : Text := "."

/-- The component for the directory above. -/
def above : Text := ".."

/-- How many octets a component may have. -/
def maxComponent : Nat := 255

/-- How many octets a path may have. -/
def maxLength : Nat := 4095

/-- The components of a path, empty ones included. -/
def components (p : Text) : List Text := (Text.splitWhere (· = slash) p.octets).map Text.mk

/-- The path of components from the current directory. -/
def relative (parts : List Text) : Text := Text.join "/" parts

/-- The path of components from the top. -/
def absolute (parts : List Text) : Text := "/" ++ relative parts

/-- Whether a path starts at the top. -/
def isAbsolute (p : Text) : Bool := p.startsWith "/"

/-- Puts a component on those before it, the last one first. At the top nothing lies above. -/
def push (rooted : Bool) (stack : List Text) (part : Text) : List Text :=
  if part.isEmpty ∨ part = here then stack
  else if part = above then
    match stack with
    | [] => if rooted then [] else [above]
    | top :: rest => if top = above then above :: stack else rest
  else part :: stack

/-- The components of a path in simplest form. -/
def simplified (p : Text) : List Text :=
  ((components p).foldl (push (isAbsolute p)) []).reverse

/-- The simplest path with the same meaning, by its text alone. -/
def clean (p : Text) : Text :=
  if isAbsolute p then absolute (simplified p)
  else if (simplified p).isEmpty then here
  else relative (simplified p)

/-- The simplest form of paths one below the other. Empty ones do not count, and all of them empty make the empty
path. -/
def join (parts : List Text) : Text :=
  match parts.filter fun p => !p.isEmpty with
  | [] => ∅
  | parts => clean (relative parts)

/-- A path as seen from a directory: itself if it is absolute. -/
def under (directory p : Text) : Text := if isAbsolute p then p else join [directory, p]

/-- The octets after the last slash. -/
def lastPart (octets : List UInt8) : List UInt8 := (octets.reverse.takeWhile (· ≠ slash)).reverse

/-- The simplest path of the directory that holds a path. -/
def parent (p : Text) : Text := clean ⟨p.octets.take (p.size - (lastPart p.octets).length)⟩

/-- The last component of a path. -/
def base (p : Text) : Text :=
  if p.isEmpty then here
  else
    match lastPart (p.octets.reverse.dropWhile (· = slash)).reverse with
    | [] => "/"
    | part => ⟨part⟩

/-- The last component of a path from its last dot on; empty if it has no dot. -/
def extension (p : Text) : Text :=
  let part := lastPart p.octets
  if part.contains (octet '.') then
    ⟨octet '.' :: (part.reverse.takeWhile (· ≠ octet '.')).reverse⟩
  else ∅

/-- The directories from a simplified absolute path up to the top, the nearest first. -/
def ancestors (p : Text) : List Text :=
  let parts := simplified p
  (List.range (parts.length + 1)).map fun up => absolute (parts.take (parts.length - up))

end Tenure.Path
