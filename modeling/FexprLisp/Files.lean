import FexprLisp.World

/-!
# File trees in memory

Entries for a world without a disk: some files and directories below the current directory. A path
is followed component by component, as an operating system does it. Above the current directory
nothing is known but that the directories are there.
-/

namespace FexprLisp

/-- Files by their components, and directories that are there without holding anything. -/
structure FileTree where
  files : List (List Text × ByteArray)
  directories : List (List Text)

namespace FileTree

def empty : FileTree := ⟨[], []⟩

/-- The components of a name in a tree. -/
def components (name : Text) : List Text := (Path.ofText name).parts

/-- Add a file; a name that ends in a slash adds a directory. -/
def insert (tree : FileTree) (name : Text) (bytes : ByteArray) : FileTree :=
  if name.getLast? = some '/' then
    { tree with directories := tree.directories ++ [components name] }
  else { tree with files := tree.files ++ [(components name, bytes)] }

def isDirectory (tree : FileTree) (name : List Text) : Bool :=
  tree.files.any (fun f => name.isPrefixOf f.1 && name.length < f.1.length) ||
    tree.directories.any name.isPrefixOf || name.isEmpty

def file? (tree : FileTree) (name : List Text) : Option ByteArray :=
  (tree.files.find? fun f => f.1 = name).map (·.2)

/-- A place on the way: so many levels above the current directory and then down again. Nothing
goes above the root. -/
structure Place where
  up : Option Nat
  down : List Text

/-- The longest component in bytes. -/
def componentLimit : Nat := 255

/-- The longest path in bytes. -/
def pathLimit : Nat := 4095

def byteLength (t : Text) : Nat := t.foldl (fun n c => n + c.utf8Size) 0

/-- Follow the components from a directory. -/
def walk (tree : FileTree) (place : Place) : List Text → Entry
  | [] => .directory
  | part :: rest =>
    if part = "..".toList then
      match place.down.reverse, place.up with
      | _ :: above, _ => walk tree { place with down := above.reverse } rest
      | [], some n => walk tree { place with up := some (n + 1) } rest
      | [], none => walk tree place rest
    else if componentLimit < byteLength part then .absent .nameTooLong
    else
      let here := place.down ++ [part]
      if place.up ≠ some 0 then .absent .missing
      else if tree.isDirectory here then walk tree { place with down := here } rest
      else match tree.file? here, rest with
        | some bytes, [] => .file bytes
        | some _, _ => .absent .notDirectory
        | none, _ => .absent .missing

/-- The entry at a path, seen from the current directory or, with a leading slash, from the root. -/
def entry (tree : FileTree) (path : Text) : Entry :=
  if pathLimit < byteLength path then .absent .nameTooLong
  else
    let p := Path.ofText path
    tree.walk ⟨if p.isAbsolute then none else some 0, []⟩ p.parts

end FileTree

end FexprLisp
