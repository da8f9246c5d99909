import Mathlib.Data.List.Basic
import Mathlib.Data.Nat.Digits.Defs
import Mathlib.Tactic.IntervalCases

/-! Byte strings as text: hexadecimal and base64, and that each reads back. -/
namespace AetherVault.Lib

theorem byte_of_nat {n : Nat} {b : UInt8} (same : n = b.toNat) : UInt8.ofNat n = b := by
  subst same
  exact UInt8.ofNat_toNat

/-! Hexadecimal. -/

def hex_value (c : Char) : Option Nat :=
  if '0' ≤ c ∧ c ≤ '9' then some (c.toNat - '0'.toNat)
  else if 'a' ≤ c ∧ c ≤ 'f' then some (c.toNat - 'a'.toNat + 10)
  else if 'A' ≤ c ∧ c ≤ 'F' then some (c.toNat - 'A'.toNat + 10)
  else none

def hex_pair (b : UInt8) : List Char := [(b.toNat / 16).digitChar,(b.toNat % 16).digitChar]

def hex (bytes : List UInt8) : List Char := bytes.flatMap hex_pair

/-- White space between two bytes is passed over. -/
def fromhex : List Char → Option (List UInt8)
  | [] => some []
  | c::rest =>
    if c.isWhitespace then fromhex rest
    else match rest with
      | [] => none
      | d::more => (hex_value c).bind fun high => (hex_value d).bind fun low =>
        (fromhex more).map (UInt8.ofNat (16 * high + low)::·)

theorem hex_value_digit {n : Nat} (small : n < 16) :
    hex_value n.digitChar = some n ∧ n.digitChar.isWhitespace = false := by
  interval_cases n <;> decide

theorem fromhex_hex (bytes : List UInt8) : fromhex (hex bytes) = some bytes := by
  induction bytes with
  | nil => rfl
  | cons b rest ih =>
    have bound : b.toNat < 256 := b.toNat_lt
    obtain ⟨high,shown⟩ := hex_value_digit (show b.toNat / 16 < 16 by omega)
    obtain ⟨low,-⟩ := hex_value_digit (show b.toNat % 16 < 16 by omega)
    have unfolded : hex (b::rest) = (b.toNat / 16).digitChar::(b.toNat % 16).digitChar::hex rest := rfl
    rw [unfolded,fromhex,shown,high,low,ih]
    simp only [Bool.false_eq_true,if_false,Option.bind_some,Option.map_some]
    rw [byte_of_nat (Nat.div_add_mod _ _)]

/-! Base64: three bytes are four digits, and the last group is padded. -/

def base64_digit (n : Nat) : Char :=
  if n < 26 then Char.ofNat ('A'.toNat + n)
  else if n < 52 then Char.ofNat ('a'.toNat + (n - 26))
  else if n < 62 then Char.ofNat ('0'.toNat + (n - 52))
  else if n = 62 then '+'
  else '/'

def base64_value (c : Char) : Option Nat :=
  if 'A' ≤ c ∧ c ≤ 'Z' then some (c.toNat - 'A'.toNat)
  else if 'a' ≤ c ∧ c ≤ 'z' then some (c.toNat - 'a'.toNat + 26)
  else if '0' ≤ c ∧ c ≤ '9' then some (c.toNat - '0'.toNat + 52)
  else if c = '+' then some 62
  else if c = '/' then some 63
  else none

def b64encode : List UInt8 → List Char
  | a::b::c::rest =>
    base64_digit (a.toNat / 4)::base64_digit (a.toNat % 4 * 16 + b.toNat / 16)::
      base64_digit (b.toNat % 16 * 4 + c.toNat / 64)::base64_digit (c.toNat % 64)::b64encode rest
  | [a,b] => [base64_digit (a.toNat / 4),base64_digit (a.toNat % 4 * 16 + b.toNat / 16),
      base64_digit (b.toNat % 16 * 4),'=']
  | [a] => [base64_digit (a.toNat / 4),base64_digit (a.toNat % 4 * 16),'=','=']
  | [] => []

/-- Any other character is refused, and so is a group that is not filled up. -/
def b64decode : List Char → Option (List UInt8)
  | [] => some []
  | p::q::r::s::rest =>
    (base64_value p).bind fun p => (base64_value q).bind fun q =>
      if r = '=' ∧ s = '=' ∧ rest = [] then some [UInt8.ofNat (p * 4 + q / 16)]
      else (base64_value r).bind fun r =>
        if s = '=' ∧ rest = [] then some [UInt8.ofNat (p * 4 + q / 16),UInt8.ofNat (q % 16 * 16 + r / 4)]
        else (base64_value s).bind fun s => (b64decode rest).map fun more =>
          UInt8.ofNat (p * 4 + q / 16)::UInt8.ofNat (q % 16 * 16 + r / 4)::UInt8.ofNat (r % 4 * 64 + s)::more
  | _ => none

theorem base64_value_digit {n : Nat} (small : n < 64) :
    base64_value (base64_digit n) = some n ∧ base64_digit n ≠ '=' := by
  interval_cases n <;> decide

theorem b64decode_b64encode (bytes : List UInt8) : b64decode (b64encode bytes) = some bytes := by
  induction bytes using b64encode.induct with
  | case1 a b c rest ih =>
    have ha : a.toNat < 256 := a.toNat_lt
    have hb : b.toNat < 256 := b.toNat_lt
    have hc : c.toNat < 256 := c.toNat_lt
    obtain ⟨p,-⟩ := base64_value_digit (show a.toNat / 4 < 64 by omega)
    obtain ⟨q,-⟩ := base64_value_digit (show a.toNat % 4 * 16 + b.toNat / 16 < 64 by omega)
    obtain ⟨r,full⟩ := base64_value_digit (show b.toNat % 16 * 4 + c.toNat / 64 < 64 by omega)
    obtain ⟨s,last⟩ := base64_value_digit (show c.toNat % 64 < 64 by omega)
    rw [b64encode,b64decode,p,q]
    simp only [Option.bind_some,full,false_and,if_false,r,last,s,ih,Option.map_some]
    rw [byte_of_nat (b := a) (by omega),byte_of_nat (b := b) (by omega),byte_of_nat (b := c) (by omega)]
  | case2 a b =>
    have ha : a.toNat < 256 := a.toNat_lt
    have hb : b.toNat < 256 := b.toNat_lt
    obtain ⟨p,-⟩ := base64_value_digit (show a.toNat / 4 < 64 by omega)
    obtain ⟨q,-⟩ := base64_value_digit (show a.toNat % 4 * 16 + b.toNat / 16 < 64 by omega)
    obtain ⟨r,full⟩ := base64_value_digit (show b.toNat % 16 * 4 < 64 by omega)
    rw [b64encode,b64decode,p,q]
    simp only [Option.bind_some,full,false_and,if_false,r,and_self,if_true]
    rw [byte_of_nat (b := a) (by omega),byte_of_nat (b := b) (by omega)]
  | case3 a =>
    have ha : a.toNat < 256 := a.toNat_lt
    obtain ⟨p,-⟩ := base64_value_digit (show a.toNat / 4 < 64 by omega)
    obtain ⟨q,-⟩ := base64_value_digit (show a.toNat % 4 * 16 < 64 by omega)
    rw [b64encode,b64decode,p,q]
    simp only [Option.bind_some,and_self,if_true]
    rw [byte_of_nat (b := a) (by omega)]
  | case4 => rfl

end AetherVault.Lib
