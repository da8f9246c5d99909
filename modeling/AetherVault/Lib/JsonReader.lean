import AetherVault.Lib.Double
import AetherVault.Lib.JsonText

/-! Bytes as UTF-8 and text as JSON, as an interpreter reads them that bounds how deep a value
nests and how many digits an integer has. Its strings may hold surrogates that stand alone. -/
namespace AetherVault.Lib.JsonReader

/-- Code points. -/
abbrev Text := List Nat

def text (s : String) : Text := s.toList.map Char.toNat

inductive Value
  | null
  | boolean (b : Bool)
  | integer (n : Int)
  | float (x : Double)
  | text (s : Text)
  | list (items : List Value)
  | dict (members : List (Text × Value))

/-! UTF-8. -/

def tail (lowest highest : Nat) (b : UInt8) : Option Nat :=
  if lowest ≤ b.toNat ∧ b.toNat ≤ highest then some (b.toNat % 0x40) else none

/-- The second byte of a sequence is held to what its first one allows: nothing is written longer
than it needs, no surrogates, nothing beyond the last code point. -/
def second (a b : UInt8) : Option Nat :=
  if a = 0xe0 then tail 0xa0 0xbf b
  else if a = 0xed then tail 0x80 0x9f b
  else if a = 0xf0 then tail 0x90 0xbf b
  else if a = 0xf4 then tail 0x80 0x8f b
  else tail 0x80 0xbf b

def decode_utf8 : List UInt8 → Option (List Char)
  | [] => some []
  | a::rest =>
    if a < 0x80 then (decode_utf8 rest).map (Char.ofNat a.toNat::·)
    else if a < 0xc2 then none
    else match rest with
      | [] => none
      | b::rest =>
        (second a b).bind fun y =>
        if a < 0xe0 then (decode_utf8 rest).map (Char.ofNat (a.toNat % 0x20 * 0x40 + y)::·)
        else match rest with
          | [] => none
          | c::rest =>
            (tail 0x80 0xbf c).bind fun z =>
            if a < 0xf0 then (decode_utf8 rest).map (Char.ofNat ((a.toNat % 0x10 * 0x40 + y) * 0x40 + z)::·)
            else match rest with
              | [] => none
              | d::rest =>
                (tail 0x80 0xbf d).bind fun w =>
                if a < 0xf5 then
                  (decode_utf8 rest).map (Char.ofNat (((a.toNat % 8 * 0x40 + y) * 0x40 + z) * 0x40 + w)::·)
                else none

theorem decode_utf8_ascii (cs : List Char) (ascii : ∀ c ∈ cs, c.toNat < 0x80) :
    decode_utf8 (cs.map fun c => UInt8.ofNat c.toNat) = some cs := by
  induction cs with
  | nil => rfl
  | cons c rest ih =>
    have small : c.toNat < 0x80 := ascii c List.mem_cons_self
    have value : (UInt8.ofNat c.toNat).toNat = c.toNat := by
      rw [UInt8.toNat_ofNat']
      omega
    have below : UInt8.ofNat c.toNat < 0x80 := by
      rw [UInt8.lt_iff_toNat_lt,value]
      exact small
    have later := ih fun d member => ascii d (List.mem_cons_of_mem c member)
    simp [decode_utf8.eq_def (_::_),below,later,Nat.mod_eq_of_lt (show c.toNat < 256 by omega)]

/-! JSON. -/

/-- What a text fails with: it is no JSON, it nests too deep, or an integer in it is too long. -/
inductive Fault
  | decode
  | recursion
  | digits
  deriving DecidableEq

/-- No limit on digits is written 0. -/
structure Limits where
  nesting : Nat
  digits : Nat

abbrev Reader (α : Type) := List Char → Except Fault (α × List Char)

def space (c : Char) : Bool := c = ' ' || c = '\t' || c = '\n' || c = '\r'

def skip (cs : List Char) : List Char := cs.dropWhile space

/-- What stands after a backslash. A high surrogate takes in a low one that follows it. -/
def scan_escape : List Char → Option (Nat × List Char)
  | [] => none
  | c::rest =>
    if c = 'u' then (JsonValue.read_hex4 rest).map fun high =>
      match JsonValue.read_unit high.2 with
      | none => high
      | some low =>
        if (0xd800 ≤ high.1 ∧ high.1 < 0xdc00) ∧ 0xdc00 ≤ low.1 ∧ low.1 < 0xe000 then
          (0x10000 + (high.1 - 0xd800) * 0x400 + (low.1 - 0xdc00),low.2)
        else high
    else if c ∈ ['"','\\','/','b','f','n','r','t'] then some ((JsonValue.unescape c).toNat,rest)
    else none

def scan_chars : Nat → Reader Text
  | 0,_ => .error .decode
  | _,[] => .error .decode
  | n+1,c::rest =>
    if c = '"' then .ok ([],rest)
    else if c < ' ' then .error .decode
    else if c = '\\' then match scan_escape rest with
      | none => .error .decode
      | some s => (scan_chars n s.2).map fun more => (s.1::more.1,more.2)
    else (scan_chars n rest).map fun more => (c.toNat::more.1,more.2)

def scan_string : Reader Text
  | '"'::rest => scan_chars (rest.length + 1) rest
  | _ => .error .decode

def read_digits (ds : List Char) : Nat := ds.foldl (fun n d => 10 * n + (d.toNat - '0'.toNat)) 0

/-- The digits after the point, with the point in front of them. -/
def scan_fraction : List Char → Option (List Char × List Char)
  | '.'::d::rest => if d.isDigit then some ((d::rest).span Char.isDigit) else none
  | _ => none

def exponent_digits (negative : Bool) (cs : List Char) : Option (Int × List Char) :=
  let ds := cs.takeWhile Char.isDigit
  if ds = [] then none
  else some (if negative then -(read_digits ds : Int) else read_digits ds,cs.dropWhile Char.isDigit)

def scan_exponent : List Char → Option (Int × List Char)
  | c::rest =>
    if c = 'e' ∨ c = 'E' then match rest with
      | '+'::more => exponent_digits false more
      | '-'::more => exponent_digits true more
      | more => exponent_digits false more
    else none
  | [] => none

def whole_digits : List Char → Option (List Char × List Char)
  | '0'::rest => some (['0'],rest)
  | d::rest => if d.isDigit then some ((d::rest).span Char.isDigit) else none
  | [] => none

section Numbers

variable [Double.Rounding]

def scan_number (limits : Limits) (negative : Bool) (cs : List Char) : Except Fault (Value × List Char) :=
  match whole_digits cs with
  | none => .error .decode
  | some whole =>
    let fraction := (scan_fraction whole.2).getD ([],whole.2)
    let exponent := (scan_exponent fraction.2).getD (0,fraction.2)
    if scan_fraction whole.2 = none ∧ scan_exponent fraction.2 = none then
      if limits.digits ≠ 0 ∧ limits.digits < whole.1.length then .error .digits
      else .ok (.integer (if negative then -(read_digits whole.1 : Int) else read_digits whole.1),whole.2)
    else
      let size : Rat := read_digits (whole.1 ++ fraction.1) * (10 : Rat) ^ (exponent.1 - (fraction.1.length : Int))
      .ok (.float (Double.Rounding.round (if negative then -size else size)),exponent.2)

def scan_word (value : Value) (word cs : List Char) : Except Fault (Value × List Char) :=
  if word <+: cs then .ok (value,cs.drop word.length) else .error .decode

end Numbers

section Sequences

variable {α : Type} (read : Reader α) (close : Char)

def scan_items : Nat → Reader (List α)
  | 0,_ => .error .decode
  | n+1,cs => (read cs).bind fun first => match skip first.2 with
    | [] => .error .decode
    | c::rest =>
      if c = close then .ok ([first.1],rest)
      else if c = ',' then (scan_items n (skip rest)).map fun more => (first.1::more.1,more.2)
      else .error .decode

def scan_sequence : Reader (List α) := fun cs =>
  match skip cs with
  | [] => .error .decode
  | c::rest => if c = close then .ok ([],rest) else scan_items read close cs.length (c::rest)

def scan_member : Reader (Text × α) := fun cs =>
  (scan_string cs).bind fun name => match skip name.2 with
    | [] => .error .decode
    | c::rest => if c = ':' then (read (skip rest)).map fun value => ((name.1,value.1),value.2) else .error .decode

end Sequences

/-- The last member of a name counts, where the first one stood. -/
def collect (members : List (Text × Value)) : List (Text × Value) :=
  members.foldl (fun found member => Dict.assign found member.1 member.2) []

section Values

variable [Double.Rounding] (limits : Limits)

def scan_once (array object : Reader Value) : Reader Value
  | [] => .error .decode
  | c::rest =>
    if c = '"' then (scan_string (c::rest)).map fun s => (.text s.1,s.2)
    else if c = '{' then object rest
    else if c = '[' then array rest
    else if c = 'n' then scan_word .null ['n','u','l','l'] (c::rest)
    else if c = 't' then scan_word (.boolean true) (JsonValue.word true) (c::rest)
    else if c = 'f' then scan_word (.boolean false) (JsonValue.word false) (c::rest)
    else if c = 'N' then scan_word (.float .nan) ['N','a','N'] (c::rest)
    else if c = 'I' then scan_word (.float (.infinity false)) "Infinity".toList (c::rest)
    else if c = '-' then
      if rest.head? = some 'I' then scan_word (.float (.infinity true)) "Infinity".toList rest
      else scan_number limits true rest
    else scan_number limits false (c::rest)

/-- Every list and every dictionary takes one of the levels that are left. -/
def scan_value : Nat → Reader Value
  | 0 => scan_once limits (fun _ => .error .recursion) (fun _ => .error .recursion)
  | depth+1 => scan_once limits
      (fun cs => (scan_sequence (scan_value depth) ']' cs).map fun items => (.list items.1,items.2))
      (fun cs => (scan_sequence (scan_member (scan_value depth)) '}' cs).map fun members =>
        (.dict (collect members.1),members.2))

def loads (cs : List Char) : Except Fault Value :=
  if cs.head? = some '\uFEFF' then .error .decode
  else (scan_value limits limits.nesting (skip cs)).bind fun value =>
    if skip value.2 = [] then .ok value.1 else .error .decode

/-- Brackets that open beyond the limit are met before anything is found wrong with the text. -/
theorem scan_value_brackets (depth more : Nat) :
    scan_value limits depth (List.replicate (depth + more + 1) '[') = .error .recursion := by
  induction depth with
  | zero => simp [scan_value,scan_once,List.replicate_succ]
  | succ depth ih =>
    have opened : scan_sequence (scan_value limits depth) ']' (List.replicate (depth + more + 1) '[') =
        .error .recursion := by
      rw [show depth + more + 1 = (depth + more) + 1 from rfl,List.replicate_succ] at ih ⊢
      simp [scan_sequence,skip,space,scan_items,ih,Except.bind]
    rw [show depth + 1 + more + 1 = (depth + more + 1) + 1 by omega,List.replicate_succ]
    simp [scan_value,scan_once,opened,Except.map]

theorem loads_brackets (more : Nat) :
    loads limits (List.replicate (limits.nesting + more + 1) '[') = .error .recursion := by
  have visible : skip (List.replicate (limits.nesting + more + 1) '[') =
      List.replicate (limits.nesting + more + 1) '[' := by simp [skip,space,List.replicate_succ]
  rw [loads,visible,scan_value_brackets]
  simp [List.replicate_succ,Except.bind]

end Values

/-! The writer, which keeps to ASCII. -/

def escaped (code : Nat) : List Char :=
  if code < 0xd800 ∨ 0xe000 ≤ code then JsonValue.escaped (Char.ofNat code) else JsonValue.unit code

def quoted (s : Text) : List Char := '"'::s.flatMap escaped ++ ['"']

def decimal (n : Int) : List Char :=
  if n < 0 then '-'::Nat.toDigits 10 n.natAbs else Nat.toDigits 10 n.natAbs

end AetherVault.Lib.JsonReader
