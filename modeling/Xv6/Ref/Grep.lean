import Xv6.Ref.Ulib

/-!
# `grep` (`grep.c`)

A string is the list of its bytes before the NUL. `grep` works in a buffer of 1024 bytes,
which begins at address 0 here. What `read` returns, call by call, is a list of pieces; behind
the last one it returns 0.
-/

namespace Xv6.Ref.Grep

open Xv6.Lib

/-! ## The matcher -/

/-- The loop of `matchstar`: `here` is `matchhere` of the rest of the pattern. -/
def starLoop (here : List UInt8 → Bool) (c : UInt8) : List UInt8 → Bool
  | [] => here []
  | t :: text => here (t :: text) || ((t == c || c == '.'.toUInt8) && starLoop here c text)

/-- `if(*text!='\0' && (c=='.' || c==*text)) return matchhere(re+1, text+1); return 0`. -/
def matchone (c : UInt8) (here : List UInt8 → Bool) : List UInt8 → Bool
  | [] => false
  | t :: text => (c == '.'.toUInt8 || c == t) && here text

def matchhere : List UInt8 → List UInt8 → Bool
  | [], _ => true
  | [c], text => if c = '$'.toUInt8 then text.isEmpty else matchone c (matchhere []) text
  | c :: d :: re, text =>
      if d = '*'.toUInt8 then starLoop (matchhere re) c text
      else matchone c (matchhere (d :: re)) text

def matchstar (c : UInt8) (re text : List UInt8) : Bool := starLoop (matchhere re) c text

/-- The loop of `match`. -/
def searchLoop (here : List UInt8 → Bool) : List UInt8 → Bool
  | [] => here []
  | t :: text => here (t :: text) || searchLoop here text

/-- `match`. -/
def matchRe (re text : List UInt8) : Bool :=
  match re with
  | [] => searchLoop (matchhere []) text
  | c :: re =>
      if c = '^'.toUInt8 then matchhere re text else searchLoop (matchhere (c :: re)) text

/-! ## `grep` -/

def nl : UInt8 := '\n'.toUInt8

/-- `strchr(p, c)`; `fuel` bounds the string. -/
def strchr (b : Mem) (c : UInt8) : Nat → Nat → Option Nat
  | 0, _ => none
  | fuel + 1, p =>
      if b p = 0 then none else if b p = c then some p else strchr b c fuel (p + 1)

/-- The string at `p`. -/
def cstr (b : Mem) : Nat → Nat → List UInt8
  | 0, _ => []
  | fuel + 1, p => if b p = 0 then [] else b p :: cstr b fuel (p + 1)

/-- The inner loop: the buffer, `p`, and what has been written. -/
def scanLines (pattern : List UInt8) :
    Nat → Mem → Nat → List UInt8 → Option (Mem × Nat × List UInt8)
  | 0, _, _, _ => none
  | fuel + 1, b, p, out =>
      match strchr b nl 1024 p with
      | none => some (b, p, out)
      | some q =>
          let b := store8 b q 0
          if matchRe pattern (cstr b 1024 p) then
            let b := store8 b q nl
            scanLines pattern fuel b (q + 1) (out ++ loads b p (q + 1 - p))
          else scanLines pattern fuel b (q + 1) out

structure Buffer where
  buf : Mem
  m : Nat
  out : List UInt8

/-- One round, in which `read` has returned the bytes `x`. -/
def grepRound (pattern : List UInt8) (s : Buffer) (x : List UInt8) : Option Buffer :=
  let m := s.m + x.length
  let b := store8 (stores s.buf s.m x) m 0
  match scanLines pattern 1025 b 0 s.out with
  | none => none
  | some (b, p, out) =>
      let m := if p = 0 then 0 else m
      if m > 0 then some ⟨Ulib.memmove b 0 p (m - p : Nat), m - p, out⟩ else some ⟨b, m, out⟩

def grepLoop (pattern : List UInt8) : List (List UInt8) → Buffer → Option Buffer
  | [], s => some s
  | x :: xs, s =>
      -- a `read` of 0 bytes returns 0
      if 1024 - s.m - 1 = 0 then some s
      else
        match grepRound pattern s x with
        | none => none
        | some s => grepLoop pattern xs s

/-- What `grep` writes. -/
def grep (pattern : List UInt8) (pieces : List (List UInt8)) : Option (List UInt8) :=
  (grepLoop pattern pieces ⟨fun _ => 0, 0, []⟩).map Buffer.out

end Xv6.Ref.Grep
