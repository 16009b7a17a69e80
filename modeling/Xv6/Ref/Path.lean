import Xv6.Ref.Param

/-!
# Path names (`skipelem` of `fs.c`)

A path is cut into its elements; `Ref/Namex.lean` has the same loop with the buffer that the
elements are copied into.
-/

namespace Xv6.Ref

/-- At most `DIRSIZ` bytes, without the padding. -/
abbrev Name := List UInt8

/-- The bytes before the terminating zero. -/
abbrev Path := List UInt8

def dot : Name := [46]

def dotdot : Name := [46, 46]

def isSlash (c : UInt8) : Bool := c = 47

/-- The next element of a path and the rest of it, which has no leading
slashes. -/
def skipelem (path : Path) : Option (Name × Path) :=
  match path.dropWhile isSlash with
  | [] => none
  | c :: cs =>
      let s := (c :: cs).takeWhile fun c => !isSlash c
      let rest := (c :: cs).dropWhile fun c => !isSlash c
      some (s.take DIRSIZ, rest.dropWhile isSlash)

/-- What the calls of `skipelem` in the loop of `namex` return, for a path of at
most `fuel` bytes. -/
def elemsOf : Nat → Path → List Name
  | 0, _ => []
  | fuel + 1, path =>
      match skipelem path with
      | none => []
      | some (name, rest) => name :: elemsOf fuel rest

def elems (path : Path) : List Name := elemsOf path.length path

end Xv6.Ref
