import Xv6.Ref.Sysfile

/-!
# Path names, byte by byte (`fs.c`)

`namex` with the buffer that `skipelem` copies each element into. The buffer has `DIRSIZ`
bytes; an element that fills it is not terminated, and a shorter one leaves the bytes
behind its zero as they were. `Ref/Sysfile.lean` has the same function with the elements
as a list.
-/

namespace Xv6.Ref.Sysfile.Namex

open Xv6.Lib
open Xv6.Ref.Inodes (Iptr)

variable {N : Nat}

/-- Copies the next element into `name` and returns the rest of the path. -/
def skipelem (path : Path) (name : List UInt8) : Option (Path × List UInt8) :=
  match path.dropWhile isSlash with
  | [] => none
  | c :: cs =>
      let s := (c :: cs).takeWhile fun c => !isSlash c
      let rest := (c :: cs).dropWhile fun c => !isSlash c
      let name :=
        if s.length ≥ DIRSIZ then s.take DIRSIZ ++ name.drop DIRSIZ
        else s ++ 0 :: name.drop (s.length + 1)
      some (rest.dropWhile isSlash, name)

/-- The loop of `namex`, with what it leaves in `name`. A round takes at least one byte of
the path. -/
def namexLoop (parent : Bool) :
    Nat → Path → List UInt8 → Iptr → SysProg N (Option Iptr × List UInt8)
  | 0, _, name, _ => pure (none, name)
  | fuel + 1, path, name, ip =>
      match skipelem path name with
      | none =>
          if parent then do
            iput ip
            pure (none, name)
          else pure (some ip, name)
      | some (path, name) => do
          ilock ip
          let i ← perform (.inode ip)
          if i.type ≠ T_DIR then
            iunlockput ip
            pure (none, name)
          else if parent ∧ path = [] then
            -- Stop one level early.
            iunlock ip
            pure (some ip, name)
          else
            match ← dirlookup ip name with
            | none =>
                iunlockput ip
                pure (none, name)
            | some (next, _) =>
                iunlockput ip
                namexLoop parent fuel path name next

def namex (path : Path) (parent : Bool) (name : List UInt8) :
    SysProg N (Option Iptr × List UInt8) := do
  let ip ← namexStart path
  namexLoop parent (path.length + 1) path name ip

/-- `name` is what the buffer on the stack happens to hold. -/
def namei (path : Path) (name : List UInt8) : SysProg N (Option Iptr) := do
  pure (← namex path false name).1

def nameiparent (path : Path) (name : List UInt8) : SysProg N (Option Iptr × List UInt8) :=
  namex path true name

end Xv6.Ref.Sysfile.Namex
