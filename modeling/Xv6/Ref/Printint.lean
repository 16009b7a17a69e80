import Mathlib

/-!
# Printing numbers (`printf.c`, `console.c`)

Both `printint` write the digits into `buf`, the last one first, and put the characters out
in the reverse order. A write past the 16 characters of `buf` is `none`. What is put out is
the list of the characters, whether by `putc` or by `consputc`.
-/

namespace Xv6.Ref.Printint

/-- `buf[i++] = c`, with what has been written so far. -/
def put (buf : List Char) (c : Char) : Option (List Char) :=
  if buf.length < 16 then some (buf ++ [c]) else none

/-- `do buf[i++] = digits[x % base]; while((x /= base) != 0)`; `fuel` bounds the rounds. -/
def digitLoop (digits : List Char) (base : Nat) : Nat → Nat → List Char → Option (List Char)
  | 0, _, _ => none
  | fuel + 1, x, buf =>
      match put buf (digits.getD (x % base) '\x00') with
      | none => none
      | some buf => if x / base = 0 then some buf else digitLoop digits base fuel (x / base) buf

/-- The loop, the sign, and `while(--i >= 0)`. -/
def putNumber (digits : List Char) (x : BitVec 32) (base : Nat) (neg : Bool) :
    Option (List Char) :=
  match digitLoop digits base 32 x.toNat [] with
  | none => none
  | some buf => (if neg then put buf '-' else some buf).map List.reverse

def userDigits : List Char := "0123456789ABCDEF".toList

def consoleDigits : List Char := "0123456789abcdef".toList

/-- `printint` of `printf.c`. -/
def user (xx : BitVec 32) (base : Nat) (sgn : Bool) : Option (List Char) :=
  if sgn && xx.slt 0 then putNumber userDigits (-xx) base true
  else putNumber userDigits xx base false

/-- `printint` of `console.c`; `sign` is overwritten with `xx < 0` if it was set. -/
def console (xx : BitVec 32) (base : Nat) (sign : Bool) : Option (List Char) :=
  let sign := sign && xx.slt 0
  putNumber consoleDigits (if sign then -xx else xx) base sign

end Xv6.Ref.Printint
