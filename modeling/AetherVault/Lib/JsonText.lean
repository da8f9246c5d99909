import AetherVault.Lib.Dict
import AetherVault.Lib.Encoding
import Mathlib.Data.List.Sort
import Mathlib.Data.String.Basic

/-! JSON values and their text as `json.dumps` writes it, escaped to ASCII. The text of
a value reads back as that value, so two values with one text are the same. -/
namespace AetherVault.Lib

def numeral_start (c : Char) : Bool := decide ('0' ≤ c ∧ c ≤ '9') || c == '-'

def numeral_char (c : Char) : Bool := numeral_start c || c ∈ ['+','.','e','E']

/-- A number, kept as the text it is written with. -/
structure Numeral where
  first : Char
  rest : List Char
  starts : numeral_start first = true
  shape : rest.all numeral_char = true
  deriving DecidableEq

theorem numeral_start_of_digit {c : Char} (digit : c.isDigit = true) : numeral_start c = true := by
  simp only [Char.isDigit,Bool.and_eq_true,decide_eq_true_eq] at digit
  simp only [numeral_start,Bool.or_eq_true,decide_eq_true_eq]
  exact Or.inl digit

def Numeral.ofNat (n : Nat) : Numeral where
  first := (Nat.toDigits 10 n).head Nat.toDigits_ne_nil
  rest := (Nat.toDigits 10 n).tail
  starts := numeral_start_of_digit (Nat.isDigit_of_mem_toDigits (by decide) (by decide) (List.head_mem _))
  shape := List.all_eq_true.mpr fun c member => by
    rw [numeral_char,numeral_start_of_digit (Nat.isDigit_of_mem_toDigits (by decide) (by decide) (List.mem_of_mem_tail member))]
    rfl

/-- No name occurs twice in a dictionary that comes from a `Dict`. -/
inductive JsonValue
  | null
  | boolean (b : Bool)
  | number (n : Numeral)
  | string (s : String)
  | list (items : List JsonValue)
  | dict (members : List (String × JsonValue))

namespace JsonValue

/-- With or without a blank after the separators. -/
structure Style where
  blanks : List Char
  blank : blanks.all Char.isWhitespace = true

def hex4 (n : Nat) : List Char :=
  [(n / 4096).digitChar,(n / 256 % 16).digitChar,(n / 16 % 16).digitChar,(n % 16).digitChar]

def unit (n : Nat) : List Char := '\\' :: 'u' :: hex4 n

/-- Characters beyond the basic plane are written as surrogates. -/
def escaped (c : Char) : List Char :=
  if c = '"' then ['\\','"']
  else if c = '\\' then ['\\','\\']
  else if c = '\n' then ['\\','n']
  else if c = '\r' then ['\\','r']
  else if c = '\t' then ['\\','t']
  else if c = '\x0c' then ['\\','f']
  else if c = '\x08' then ['\\','b']
  else if ' ' ≤ c ∧ c ≤ '~' then [c]
  else if c.toNat < 0x10000 then unit c.toNat
  else unit (0xd800 + (c.toNat - 0x10000) / 0x400) ++ unit (0xdc00 + (c.toNat - 0x10000) % 0x400)

def quoted (s : String) : List Char := '"'::s.toList.flatMap escaped ++ ['"']

def joined (style : Style) (texts : List (List Char)) : List Char := (','::style.blanks).intercalate texts

def word (b : Bool) : List Char := if b then ['t','r','u','e'] else ['f','a','l','s','e']

mutual

/-- Members in the order they are in. -/
def text (style : Style) : JsonValue → List Char
  | .null => ['n','u','l','l']
  | .boolean b => word b
  | .number n => n.first::n.rest
  | .string s => quoted s
  | .list items => '['::joined style (texts style items) ++ [']']
  | .dict members => '{'::joined style (member_texts style members) ++ ['}']

def texts (style : Style) : List JsonValue → List (List Char)
  | [] => []
  | value::rest => text style value::texts style rest

def member_texts (style : Style) : List (String × JsonValue) → List (List Char)
  | [] => []
  | (name,value)::rest => (quoted name ++ ':'::style.blanks ++ text style value)::member_texts style rest

end

mutual

/-- Members sorted by their names, at every level. -/
def arrange : JsonValue → JsonValue
  | .list items => .list (arrange_items items)
  | .dict members => .dict ((arrange_members members).insertionSort fun a b => a.1 ≤ b.1)
  | value => value

def arrange_items : List JsonValue → List JsonValue
  | [] => []
  | value::rest => arrange value::arrange_items rest

def arrange_members : List (String × JsonValue) → List (String × JsonValue)
  | [] => []
  | (name,value)::rest => (name,arrange value)::arrange_members rest

end

def dumps (style : Style) (sort_keys : Bool) (value : JsonValue) : List Char :=
  text style (if sort_keys then arrange value else value)

/-! The reader. -/

def skip_space (cs : List Char) : List Char := cs.dropWhile Char.isWhitespace

def read_hex4 : List Char → Option (Nat × List Char)
  | a::b::c::d::rest =>
    (hex_value a).bind fun a => (hex_value b).bind fun b => (hex_value c).bind fun c => (hex_value d).map fun d =>
      (((a * 16 + b) * 16 + c) * 16 + d,rest)
  | _ => none

def read_unit : List Char → Option (Nat × List Char)
  | '\\' :: 'u' :: rest => read_hex4 rest
  | _ => none

/-- A high surrogate is followed by a low one. -/
def read_code (cs : List Char) : Option (Char × List Char) :=
  (read_unit cs).bind fun high =>
    if 0xd800 ≤ high.1 ∧ high.1 < 0xdc00 then (read_unit high.2).map fun low =>
      (Char.ofNat (0x10000 + (high.1 - 0xd800) * 0x400 + (low.1 - 0xdc00)),low.2)
    else some (Char.ofNat high.1,high.2)

def unescape (c : Char) : Char :=
  if c = 'n' then '\n' else if c = 'r' then '\r' else if c = 't' then '\t' else if c = 'f' then '\x0c'
  else if c = 'b' then '\x08' else c

def read_char : List Char → Option (Char × List Char)
  | [] => none
  | c::rest =>
    if c = '\\' then match rest with
      | [] => none
      | d::more => if d = 'u' then read_code (c::rest) else some (unescape d,more)
    else some (c,rest)

/-- The characters up to the closing quote. -/
def read_chars : Nat → List Char → Option (List Char × List Char)
  | 0,_ => none
  | n+1,cs => if cs.head? = some '"' then some ([],cs.tail)
    else (read_char cs).bind fun c => (read_chars n c.2).map fun more => (c.1::more.1,more.2)

def read_string (cs : List Char) : Option (String × List Char) :=
  if cs.head? = some '"' then (read_chars cs.length cs.tail).map fun s => (String.ofList s.1,s.2) else none

section Sequence

variable {α : Type} (read : List Char → Option (α × List Char)) (close : Char)

def read_elements : Nat → List Char → Option (List α × List Char)
  | 0,_ => none
  | n+1,cs => (read cs).bind fun first => match skip_space first.2 with
    | [] => none
    | c::rest =>
      if c = close then some ([first.1],rest)
      else if c = ',' then (read_elements n (skip_space rest)).map fun more => (first.1::more.1,more.2)
      else none

def read_sequence (cs : List Char) : Option (List α × List Char) :=
  match skip_space cs with
  | [] => none
  | c::rest => if c = close then some ([],rest) else read_elements read close cs.length (c::rest)

def read_member (cs : List Char) : Option ((String × α) × List Char) :=
  (read_string cs).bind fun name => match skip_space name.2 with
    | [] => none
    | c::rest => if c = ':' then (read (skip_space rest)).map fun value => ((name.1,value.1),value.2) else none

end Sequence

def read_number (c : Char) (rest : List Char) : Option (JsonValue × List Char) :=
  if starts : numeral_start c = true then
    some (.number ⟨c,rest.takeWhile numeral_char,starts,List.all_takeWhile⟩,rest.dropWhile numeral_char)
  else none

def read_word (value : JsonValue) (word cs : List Char) : Option (JsonValue × List Char) :=
  if word <+: cs then some (value,cs.drop word.length) else none

def read_value : Nat → List Char → Option (JsonValue × List Char)
  | 0,_ => none
  | _,[] => none
  | depth+1,c::rest =>
    if c = '"' then (read_string (c::rest)).map fun s => (.string s.1,s.2)
    else if c = '[' then (read_sequence (read_value depth) ']' rest).map fun items => (.list items.1,items.2)
    else if c = '{' then (read_sequence (read_member (read_value depth)) '}' rest).map fun members =>
      (.dict members.1,members.2)
    else if c = 'n' then read_word .null ['n','u','l','l'] (c::rest)
    else if c = 't' then read_word (.boolean true) (word true) (c::rest)
    else if c = 'f' then read_word (.boolean false) (word false) (c::rest)
    else read_number c rest

def loads (cs : List Char) : Option JsonValue :=
  (read_value (cs.length + 1) (skip_space cs)).bind fun value => if skip_space value.2 = [] then some value.1 else none

/-! Strings read back, character by character. -/

theorem read_hex4_hex4 {n : Nat} (small : n < 0x10000) (rest : List Char) :
    read_hex4 (hex4 n ++ rest) = some (n,rest) := by
  have first := (hex_value_digit (show n / 4096 < 16 by omega)).1
  have second := (hex_value_digit (show n / 256 % 16 < 16 by omega)).1
  have third := (hex_value_digit (show n / 16 % 16 < 16 by omega)).1
  have fourth := (hex_value_digit (show n % 16 < 16 by omega)).1
  have whole : ((n / 4096 * 16 + n / 256 % 16) * 16 + n / 16 % 16) * 16 + n % 16 = n := by omega
  simp [hex4,read_hex4,first,second,third,fourth,whole]

theorem read_unit_unit {n : Nat} (small : n < 0x10000) (rest : List Char) : read_unit (unit n ++ rest) = some (n,rest) :=
  read_hex4_hex4 small rest

theorem read_char_escaped (c : Char) (rest : List Char) :
    read_char (escaped c ++ rest) = some (c,rest) ∧ (escaped c ++ rest).head? ≠ some '"' := by
  fun_cases escaped c with
  | case1 => subst c; exact ⟨rfl,by simp⟩
  | case2 => subst c; exact ⟨rfl,by simp⟩
  | case3 => subst c; exact ⟨rfl,by simp⟩
  | case4 => subst c; exact ⟨rfl,by simp⟩
  | case5 => subst c; exact ⟨rfl,by simp⟩
  | case6 => subst c; exact ⟨rfl,by simp⟩
  | case7 => subst c; exact ⟨rfl,by simp⟩
  | case8 quote slash => simp [read_char,quote,slash]
  | case9 _ _ _ _ _ _ _ plain basic =>
    have valid : c.toNat < 0xd800 ∨ 0xdfff < c.toNat ∧ c.toNat < 0x110000 := c.valid
    have outside : ¬(0xd800 ≤ c.toNat ∧ c.toNat < 0xdc00) := by omega
    refine ⟨?_,by simp [unit]⟩
    change read_code (unit c.toNat ++ rest) = _
    rw [read_code,read_unit_unit basic]
    simp [outside]
  | case10 _ _ _ _ _ _ _ plain astral =>
    have valid : c.toNat < 0xd800 ∨ 0xdfff < c.toNat ∧ c.toNat < 0x110000 := c.valid
    generalize high_is : 0xd800 + (c.toNat - 0x10000) / 0x400 = high
    generalize low_is : 0xdc00 + (c.toNat - 0x10000) % 0x400 = low
    have inside : 0xd800 ≤ high ∧ high < 0xdc00 := by omega
    have whole : 0x10000 + (high - 0xd800) * 0x400 + (low - 0xdc00) = c.toNat := by omega
    refine ⟨?_,by simp [unit]⟩
    rw [List.append_assoc]
    change read_code (unit high ++ (unit low ++ rest)) = _
    rw [read_code,read_unit_unit (by omega),Option.bind_some,if_pos inside,read_unit_unit (by omega)]
    simp [whole]

theorem read_chars_escaped (s rest : List Char) {n : Nat} (enough : s.length < n) :
    read_chars n (s.flatMap escaped ++ '"'::rest) = some (s,rest) := by
  induction s generalizing n with
  | nil =>
    obtain ⟨n,rfl⟩ : ∃ m, n = m + 1 := ⟨n - 1,by simp at enough; omega⟩
    simp [read_chars]
  | cons c s ih =>
    obtain ⟨n,rfl⟩ : ∃ m, n = m + 1 := ⟨n - 1,by simp at enough; omega⟩
    obtain ⟨one,opened⟩ := read_char_escaped c (s.flatMap escaped ++ '"'::rest)
    rw [List.flatMap_cons,List.append_assoc,read_chars,if_neg opened,one,Option.bind_some]
    simp [ih (by simpa using enough)]

theorem escaped_length (c : Char) : 0 < (escaped c).length := by
  fun_cases escaped c <;> simp [unit]

theorem length_flatMap_escaped (s : List Char) : s.length ≤ (s.flatMap escaped).length := by
  induction s with
  | nil => simp
  | cons c s ih =>
    have one := escaped_length c
    simp only [List.flatMap_cons,List.length_cons,List.length_append]
    omega

theorem read_string_quoted (s : String) (rest : List Char) : read_string (quoted s ++ rest) = some (s,rest) := by
  have long := length_flatMap_escaped s.toList
  have unfolded : quoted s ++ rest = '"'::(s.toList.flatMap escaped ++ '"'::rest) := by simp [quoted]
  rw [unfolded,read_string,if_pos List.head?_cons,List.tail_cons,read_chars_escaped _ _ (by simp only [List.length_cons,List.length_append]; omega)]
  simp

/-! Sequences. -/

/-- What comes after a value: nothing that would go on with a number. -/
def Follows (rest : List Char) : Prop := ∀ c ∈ rest.head?, numeral_char c = false

/-- How the text of an element begins. -/
def Opens (close : Char) (text : List Char) : Prop :=
  ∃ c rest, text = c::rest ∧ c.isWhitespace = false ∧ c ≠ close

theorem skip_space_cons {c : Char} (visible : c.isWhitespace = false) (rest : List Char) :
    skip_space (c::rest) = c::rest := by
  simp [skip_space,visible]

theorem Opens.skip {close : Char} {text : List Char} (opens : Opens close text) (rest : List Char) :
    skip_space (text ++ rest) = text ++ rest := by
  obtain ⟨c,more,rfl,visible,-⟩ := opens
  exact skip_space_cons visible _

theorem Style.skip (style : Style) (cs : List Char) : skip_space (style.blanks ++ cs) = skip_space cs :=
  List.dropWhile_append_of_pos (List.all_eq_true.mp style.blank)

/-- Neither a blank nor a bracket goes on with a number. -/
theorem Style.follows (style : Style) {close : Char} (sharp : numeral_char close = false) {rest : List Char} :
    Follows (style.blanks ++ close::rest) := by
  intro c first
  cases blanks : style.blanks with
  | nil =>
    rw [blanks] at first
    rwa [← Option.some.inj first]
  | cons b more =>
    rw [blanks] at first
    have white := List.all_eq_true.mp style.blank b (blanks ▸ List.mem_cons_self)
    rw [← Option.some.inj first]
    simp only [Char.isWhitespace,Bool.or_eq_true,decide_eq_true_eq] at white
    rcases white with ((rfl | rfl) | rfl) | rfl <;> decide

theorem no_blanks : [].all Char.isWhitespace = true := List.all_nil

/-- Nothing between the brackets and what they hold. -/
def Style.tight : Style := ⟨[],no_blanks⟩

theorem joined_cons_cons (style : Style) (a b : List Char) (more : List (List Char)) :
    joined style (a::b::more) = a ++ ','::(style.blanks ++ joined style (b::more)) := by
  simp [joined,List.intercalate_cons_cons]

theorem joined_singleton (style : Style) (a : List Char) : joined style [a] = a := by simp [joined]

theorem joined_opens (style : Style) {close : Char} {a : List Char} (opens : Opens close a) (more : List (List Char)) :
    Opens close (joined style (a::more)) := by
  obtain ⟨c,rest,rfl,visible,apart⟩ := opens
  cases more with
  | nil => exact ⟨c,rest,joined_singleton style _,visible,apart⟩
  | cons b more => exact ⟨c,_,by rw [joined_cons_cons]; rfl,visible,apart⟩

theorem length_le_joined (style : Style) {a : List Char} {texts : List (List Char)} (member : a ∈ texts) :
    a.length ≤ (joined style texts).length := by
  induction texts with
  | nil => simp at member
  | cons b more ih =>
    cases more with
    | nil => simp_all [joined]
    | cons c more =>
      rw [joined_cons_cons]
      rcases List.mem_cons.mp member with rfl | inside
      · simp
      · have := ih inside
        simp
        omega

section Sequence

variable {α : Type} {read : List Char → Option (α × List Char)} {close : Char} {write : α → List Char} {items : List α}

theorem length_le_joined_items (style : Style) (opens : ∀ a ∈ items, Opens close (write a)) :
    items.length ≤ (joined style (items.map write)).length := by
  induction items with
  | nil => simp
  | cons a more ih =>
    obtain ⟨c,rest,shape,-⟩ := opens a (by simp)
    cases more with
    | nil => simp [joined,shape]
    | cons b more =>
      have later := ih fun a member => opens a (by simp [member])
      simp only [List.map_cons,joined_cons_cons,shape,List.length_append,List.length_cons] at later ⊢
      omega

variable (sharp : close.isWhitespace = false ∧ numeral_char close = false ∧ close ≠ ',')
  (opens : ∀ a ∈ items, Opens close (write a))
  (reads : ∀ a ∈ items, ∀ rest, Follows rest → read (write a ++ rest) = some (a,rest))
include sharp opens reads

theorem read_elements_joined (style after : Style) (some_item : items ≠ []) {n : Nat} (enough : items.length ≤ n)
    (rest : List Char) :
    read_elements read close n (joined style (items.map write) ++ (after.blanks ++ close::rest)) = some (items,rest) := by
  induction items generalizing n with
  | nil => contradiction
  | cons a more ih =>
    obtain ⟨n,rfl⟩ : ∃ m, n = m + 1 := ⟨n - 1,by simp at enough; omega⟩
    cases more with
    | nil =>
      have one := reads a (by simp) (after.blanks ++ close::rest) (after.follows sharp.2.1)
      simp [read_elements,joined,one,Style.skip,skip_space_cons sharp.1]
    | cons b more =>
      have one := reads a (by simp) (','::(style.blanks ++ (joined style ((b::more).map write) ++ (after.blanks ++ close::rest))))
        (by simp [Follows]; decide)
      have begins := joined_opens style (opens b (by simp)) (more.map write)
      have later := ih (fun a member => opens a (by simp [member])) (fun a member => reads a (by simp [member]))
        (by simp) (n := n) (by simpa using enough)
      rw [List.map_cons] at later one
      simp only [List.map_cons,joined_cons_cons,List.append_assoc,List.cons_append]
      rw [read_elements,one,Option.bind_some,skip_space_cons (by decide)]
      simp only [if_neg sharp.2.2.symm,if_true,Style.skip,begins.skip]
      rw [later]
      rfl

theorem read_sequence_joined (before style after : Style) (rest : List Char) :
    read_sequence read close (before.blanks ++ (joined style (items.map write) ++ (after.blanks ++ close::rest))) = some (items,rest) := by
  cases items with
  | nil => simp [read_sequence,joined,Style.skip,skip_space_cons sharp.1]
  | cons a more =>
    have long := length_le_joined_items style opens
    obtain ⟨c,text,begins,visible,apart⟩ := joined_opens style (opens a (by simp)) (more.map write)
    rw [← List.map_cons] at begins
    have elements := read_elements_joined sharp opens reads style after (by simp)
      (n := (before.blanks ++ (joined style ((a::more).map write) ++ (after.blanks ++ close::rest))).length)
      (by rw [List.length_append,List.length_append]; omega) rest
    rw [begins,List.cons_append] at elements ⊢
    rw [read_sequence,Style.skip,skip_space_cons visible]
    simpa [apart] using elements

end Sequence

/-! Values. -/

theorem texts_eq (style : Style) (items : List JsonValue) : texts style items = items.map (text style) := by
  induction items with
  | nil => rfl
  | cons a more ih => rw [texts,ih,List.map_cons]

def member_text (style : Style) (member : String × JsonValue) : List Char :=
  quoted member.1 ++ ':'::style.blanks ++ text style member.2

theorem member_texts_eq (style : Style) (members : List (String × JsonValue)) :
    member_texts style members = members.map (member_text style) := by
  induction members with
  | nil => rfl
  | cons a more ih =>
    obtain ⟨name,value⟩ := a
    rw [member_texts,ih,List.map_cons]
    rfl

theorem member_opens (style : Style) (member : String × JsonValue) : Opens '}' (member_text style member) :=
  ⟨'"',_,rfl,by decide,by decide⟩

theorem numeral_start_ne {c d : Char} (starts : numeral_start c = true) (other : numeral_start d = false) : c ≠ d := by
  intro same
  simp [← same,starts] at other

theorem numeral_start_visible {c : Char} (starts : numeral_start c = true) : c.isWhitespace = false := by
  simp [Char.isWhitespace,numeral_start_ne starts (show numeral_start ' ' = false by decide),
    numeral_start_ne starts (show numeral_start '\t' = false by decide),
    numeral_start_ne starts (show numeral_start '\r' = false by decide),
    numeral_start_ne starts (show numeral_start '\n' = false by decide)]

theorem text_opens (style : Style) (value : JsonValue) {close : Char} (bracket : close = ']' ∨ close = '}') :
    Opens close (text style value) := by
  have apart {c : Char} (other : c ≠ ']' ∧ c ≠ '}') : c ≠ close := by rcases bracket with rfl | rfl <;> simp [other]
  cases value with
  | null => exact ⟨'n',_,rfl,by decide,apart (by decide)⟩
  | boolean b => cases b with
    | true => exact ⟨'t',_,rfl,by decide,apart (by decide)⟩
    | false => exact ⟨'f',_,rfl,by decide,apart (by decide)⟩
  | number n => exact ⟨n.first,_,rfl,numeral_start_visible n.starts,apart ⟨numeral_start_ne n.starts (by decide),
      numeral_start_ne n.starts (by decide)⟩⟩
  | string s => exact ⟨'"',_,rfl,by decide,apart (by decide)⟩
  | list items => exact ⟨'[',_,rfl,by decide,apart (by decide)⟩
  | dict members => exact ⟨'{',_,rfl,by decide,apart (by decide)⟩

theorem read_number_text (n : Numeral) {rest : List Char} (follows : Follows rest) :
    read_number n.first (n.rest ++ rest) = some (.number n,rest) := by
  have shape := List.all_eq_true.mp n.shape
  have stop : rest.takeWhile numeral_char = [] ∧ rest.dropWhile numeral_char = rest := by
    cases rest with
    | nil => simp
    | cons c more => simp [follows c rfl]
  unfold read_number
  rw [dif_pos n.starts,List.dropWhile_append_of_pos shape,stop.2]
  simp [List.takeWhile_append_of_pos shape,stop.1]

theorem read_member_quoted (style : Style) {depth : Nat} {name : String} {value : JsonValue} {content rest : List Char}
    (opens : Opens '}' content) (reads : read_value depth (content ++ rest) = some (value,rest)) :
    read_member (read_value depth) (quoted name ++ ':'::style.blanks ++ content ++ rest) = some ((name,value),rest) := by
  have opened := opens.skip rest
  simp only [read_member,List.append_assoc,List.cons_append,read_string_quoted,Option.bind_some]
  rw [skip_space_cons (by decide)]
  simp [Style.skip,opened,reads]

theorem read_member_text {style : Style} {depth : Nat} {member : String × JsonValue} {rest : List Char}
    (reads : read_value depth (text style member.2 ++ rest) = some (member.2,rest)) :
    read_member (read_value depth) (member_text style member ++ rest) = some (member,rest) :=
  read_member_quoted style (text_opens style member.2 (Or.inr rfl)) reads

/-- By induction on the depth allowed, for which the length of the text is enough. -/
theorem read_value_text (style : Style) (value : JsonValue) {depth : Nat} (enough : (text style value).length < depth)
    {rest : List Char} (follows : Follows rest) :
    read_value depth (text style value ++ rest) = some (value,rest) := by
  induction depth generalizing value rest with
  | zero => simp at enough
  | succ depth ih =>
    cases value with
    | null => simp [text,read_value,read_word]
    | boolean b => cases b <;> simp [text,word,read_value,read_word]
    | number n =>
      have apart {d : Char} (other : numeral_start d = false) : n.first ≠ d := numeral_start_ne n.starts other
      rw [text,List.cons_append,read_value,if_neg (apart (by decide)),if_neg (apart (by decide)),if_neg (apart (by decide)),
        if_neg (apart (by decide)),if_neg (apart (by decide)),if_neg (apart (by decide)),read_number_text n follows]
    | string s =>
      rw [text,quoted,List.cons_append,List.cons_append,read_value,if_pos rfl,← List.cons_append,← List.cons_append]
      change (read_string (quoted s ++ rest)).map _ = _
      rw [read_string_quoted]
      rfl
    | list items =>
      have each : ∀ a ∈ items, ∀ rest, Follows rest → read_value depth (text style a ++ rest) = some (a,rest) := by
        intro a member rest follows
        apply ih a _ follows
        have short := length_le_joined style (texts_eq style items ▸ List.mem_map_of_mem member)
        simp only [text,List.length_append,List.length_cons] at enough
        omega
      have all := read_sequence_joined (by decide) (fun a _ => text_opens style a (Or.inl rfl)) each .tight style .tight rest
      rw [Style.tight,List.nil_append,List.nil_append] at all
      rw [text,List.cons_append,List.cons_append,List.append_assoc,read_value,if_neg (by decide),if_pos rfl,texts_eq]
      simp [all]
    | dict members =>
      have each : ∀ a ∈ members, ∀ rest, Follows rest →
          read_member (read_value depth) (member_text style a ++ rest) = some (a,rest) := by
        intro a member rest follows
        apply read_member_text
        apply ih a.2 _ follows
        have short := length_le_joined style (member_texts_eq style members ▸ List.mem_map_of_mem member)
        simp only [text,member_text,List.length_append,List.length_cons] at enough short
        omega
      have all := read_sequence_joined (by decide) (fun a _ => member_opens style a) each .tight style .tight rest
      rw [Style.tight,List.nil_append,List.nil_append] at all
      rw [text,List.cons_append,List.cons_append,List.append_assoc,read_value,if_neg (by decide),if_neg (by decide),
        if_pos rfl,member_texts_eq]
      simp [all]

theorem loads_text (style : Style) (value : JsonValue) : loads (text style value) = some value := by
  have opened := (text_opens style value (Or.inl rfl)).skip []
  have read : read_value ((text style value).length + 1) (text style value ++ []) = some (value,[]) :=
    read_value_text style value (Nat.lt_succ_self _) (by simp [Follows])
  rw [List.append_nil] at opened read
  rw [loads,opened,read]
  rfl

theorem text_injective (style : Style) : Function.Injective (text style) := fun a b same =>
  Option.some.inj ((loads_text style a).symm.trans ((congrArg loads same).trans (loads_text style b)))

/-- Two values have one sorted text exactly when they are the same but for the order of members. -/
theorem dumps_sorted_iff (style : Style) (a b : JsonValue) :
    dumps style true a = dumps style true b ↔ a.arrange = b.arrange :=
  (text_injective style).eq_iff

theorem arrange_members_eq (members : List (String × JsonValue)) :
    arrange_members members = members.map fun member => (member.1,arrange member.2) := by
  induction members with
  | nil => rfl
  | cons a more ih =>
    obtain ⟨name,value⟩ := a
    rw [arrange_members,ih,List.map_cons]

mutual

theorem arrange_arrange : ∀ value : JsonValue, arrange (arrange value) = arrange value
  | .null | .boolean _ | .number _ | .string _ => rfl
  | .list items => by rw [arrange,arrange,arrange_items_arranged items]
  | .dict members => by
    rw [arrange,arrange,arrange_members_eq (List.insertionSort _ _)]
    have fixed : ∀ member ∈ (arrange_members members).insertionSort fun a b => a.1 ≤ b.1,
        (member.1,arrange member.2) = member := by
      intro member inside
      rw [arrange_members_arranged members member ((List.mem_insertionSort _).mp inside)]
    rw [List.map_congr_left fixed,List.map_id',List.Pairwise.insertionSort_eq (List.pairwise_insertionSort _ _)]

theorem arrange_items_arranged : ∀ items : List JsonValue, arrange_items (arrange_items items) = arrange_items items
  | [] => rfl
  | value::rest => by rw [arrange_items,arrange_items,arrange_arrange value,arrange_items_arranged rest]

theorem arrange_members_arranged : ∀ members : List (String × JsonValue), ∀ member ∈ arrange_members members,
    arrange member.2 = member.2
  | [],_,inside => absurd inside List.not_mem_nil
  | (name,value)::rest,member,inside => by
    rw [arrange_members] at inside
    cases List.mem_cons.mp inside with
    | inl same => rw [same,arrange_arrange value]
    | inr later => exact arrange_members_arranged rest member later

end

theorem arrange_dict_iff (a b : Dict String JsonValue) : arrange (.dict a.entries) = arrange (.dict b.entries) ↔
    ∀ key, (a.get? key).map arrange = (b.get? key).map arrange := by
  have sorts (d : Dict String JsonValue) : ∃ sorted : List (String × JsonValue),
      arrange (.dict d.entries) = .dict sorted ∧ sorted.Perm (d.map fun _ value => arrange value).entries ∧
        sorted.Pairwise fun a b => a.1 ≤ b.1 :=
    ⟨_,rfl,(List.perm_insertionSort _ _).trans (by rw [arrange_members_eq]; rfl),List.pairwise_insertionSort _ _⟩
  obtain ⟨one,same_one,perm_one,ordered_one⟩ := sorts a
  obtain ⟨two,same_two,perm_two,ordered_two⟩ := sorts b
  have members {d : Dict String JsonValue} {sorted : List (String × JsonValue)}
      (perm : sorted.Perm (d.map fun _ value => arrange value).entries) (key : String) (value : JsonValue) :
      (key,value) ∈ sorted ↔ (d.get? key).map arrange = some value := by
    rw [perm.mem_iff,Dict.mem_entries,Dict.get?_map]
  rw [same_one,same_two,JsonValue.dict.injEq]
  constructor
  · intro same key
    apply Option.ext
    intro value
    rw [← members perm_one,← members perm_two,same]
  · intro same
    have distinct {d : Dict String JsonValue} {sorted : List (String × JsonValue)}
        (perm : sorted.Perm (d.map fun _ value => arrange value).entries) : sorted.Nodup :=
      perm.nodup_iff.mpr (d.map _).distinct.of_map
    apply List.Perm.eq_of_pairwise _ ordered_one ordered_two
    · rw [List.perm_ext_iff_of_nodup (distinct perm_one) (distinct perm_two)]
      intro member
      obtain ⟨key,value⟩ := member
      rw [members perm_one,members perm_two,same]
    · intro x y left right below above
      obtain ⟨key,value⟩ := x
      obtain ⟨key',value'⟩ := y
      obtain rfl : key = key' := le_antisymm below above
      rw [members perm_one] at left
      rw [members perm_two] at right
      rw [same,right] at left
      rw [Option.some.inj left]

theorem arrange_dict_names {a b : List (String × JsonValue)} (same : arrange (.dict a) = arrange (.dict b)) {name : String}
    (member : name ∈ a.map Prod.fst) : name ∈ b.map Prod.fst := by
  have names (members : List (String × JsonValue)) :
      (((arrange_members members).insertionSort fun a b => a.1 ≤ b.1).map Prod.fst).Perm (members.map Prod.fst) := by
    refine ((List.perm_insertionSort _ _).map _).trans ?_
    rw [arrange_members_eq,List.map_map]
    rfl
  have sorted := JsonValue.dict.inj same
  rw [← (names b).mem_iff,← sorted,(names a).mem_iff]
  exact member

end JsonValue

end AetherVault.Lib
