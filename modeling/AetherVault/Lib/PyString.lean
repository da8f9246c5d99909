import Mathlib.Data.List.Basic

/-! Python's `str.strip` and `fnmatch`, on lists of characters. -/
namespace AetherVault.Lib.PyString

/-- What `str.isspace` takes for a blank. -/
def is_space (c : Char) : Bool :=
  let n := c.toNat
  9 ≤ n && n ≤ 13 || 28 ≤ n && n ≤ 32 || n = 0x85 || n = 0xa0 || n = 0x1680 || 0x2000 ≤ n && n ≤ 0x200a || n = 0x2028 ||
    n = 0x2029 || n = 0x202f || n = 0x205f || n = 0x3000

def lstrip (cs : List Char) : List Char := cs.dropWhile is_space

def rstrip (cs : List Char) : List Char := (cs.reverse.dropWhile is_space).reverse

def strip (cs : List Char) : List Char := rstrip (lstrip cs)

inductive Glob
  | star
  | any
  | one (negate : Bool) (ranges : List (Char × Char))
  | char (c : Char)

/-- The ranges between brackets; a dash at either end is itself. -/
def ranges : List Char → List (Char × Char)
  | a :: '-' :: b::rest => (a,b)::ranges rest
  | a::rest => (a,a)::ranges rest
  | [] => []

/-- What stands between brackets, and what follows; the first character is never the closing one. -/
def bracket (cs : List Char) : Option (Bool × List Char × List Char) :=
  let negate := cs.head? = some '!'
  let body := if negate then cs.tail else cs
  match body with
  | [] => none
  | first::rest =>
    let inner := rest.takeWhile (· ≠ ']')
    match rest.drop inner.length with
    | [] => none
    | _::after => some (negate,first::inner,after)

/-- A bracket that nothing closes is a character. -/
def translate : Nat → List Char → List Glob
  | 0,_ => []
  | _,[] => []
  | fuel+1,'*'::rest => .star::translate fuel rest
  | fuel+1,'?'::rest => .any::translate fuel rest
  | fuel+1,'['::rest =>
    match bracket rest with
    | none => .char '['::translate fuel rest
    | some (negate,inner,after) => .one negate (ranges inner)::translate fuel after
  | fuel+1,c::rest => .char c::translate fuel rest

def matches_globs : List Glob → List Char → Bool
  | [],name => name.isEmpty
  | .star::rest,name => name.tails.any (matches_globs rest)
  | .any::rest,name => match name with
    | [] => false
    | _::name => matches_globs rest name
  | .one negate ranges::rest,name => match name with
    | [] => false
    | c::name => (ranges.any fun range => range.1 ≤ c && c ≤ range.2) != negate && matches_globs rest name
  | .char c::rest,name => match name with
    | [] => false
    | first::name => first = c && matches_globs rest name

def fnmatch (name pattern : List Char) : Bool := matches_globs (translate pattern.length pattern) name

example : fnmatch "model_7.bin".toList "*_[0-9].bi?".toList = true := by decide

end AetherVault.Lib.PyString
