import Conformance.Ty.Basic

/-!
Numerals of constants: digits in a base, with an optional sign, within the range
of the constant.
-/

namespace Conformance

namespace Numeral

def digit? (c : Char) : Option Nat :=
  if '0' ≤ c ∧ c ≤ '9' then some (c.toNat - '0'.toNat)
  else if 'a' ≤ c ∧ c ≤ 'f' then some (c.toNat - 'a'.toNat + 10)
  else if 'A' ≤ c ∧ c ≤ 'F' then some (c.toNat - 'A'.toNat + 10)
  else none

/-- Value of a nonempty run of digits below `base`. -/
def digits? (base : Nat) (cs : List Char) : Option Nat :=
  if cs.isEmpty then none
  else cs.foldlM (fun acc c => do
    let d ← digit? c
    if d < base then some (acc * base + d) else none) 0

/-- Value of digits after an optional plus. -/
def unsigned? (base : Nat) : List Char → Option Nat
  | '+' :: cs => digits? base cs
  | cs => digits? base cs

/-- Value of digits after an optional sign. -/
def signed? (base : Nat) : List Char → Option Int
  | '-' :: cs => (digits? base cs).map fun n => -(n : Int)
  | cs => (unsigned? base cs).map Int.ofNat

end Numeral

namespace Constant

/-- The character with a code point, if it has one. -/
def char? (code : Nat) : Option Constant :=
  if code.isValidChar then some (.char (Char.ofNat code)) else none

/-- A value of 32 bits. -/
def int? (value : Int) : Option Constant :=
  if -2147483648 ≤ value ∧ value < 2147483648 then some (.int value) else none

/-- A decimal numeral of 64 bits. -/
def long? (numeral : String) : Option Constant := do
  let value ← Numeral.signed? 10 numeral.toList
  if -9223372036854775808 ≤ value ∧ value < 9223372036854775808 then some (.long value) else none

/-- The double with the bits of a hexadecimal numeral. -/
def double? (numeral : String) : Option Constant := do
  let bits ← Numeral.unsigned? 16 numeral.toList
  if bits < UInt64.size then some (.double (UInt64.ofNat bits)) else none

/-- The value of 32 bits that a word stands for in two's complement. -/
def ofWord (n : Nat) : Constant := .int ((n : Int).bmod UInt32.size)

end Constant

end Conformance
