import AetherVault.Lib.Encoding
import Mathlib.Data.List.DropRight
import Mathlib.Data.List.Induction

/-! Bytes in a URL: base64 with its two other digits, written without its padding, and the reader that
passes over everything it does not know. -/
namespace AetherVault.Lib.UrlText

def safe_char (c : Char) : Char := if c = '+' then '-' else if c = '/' then '_' else c

def unsafe_char (c : Char) : Char := if c = '-' then '+' else if c = '_' then '/' else c

def urlsafe_b64encode (bytes : List UInt8) : List Char := (b64encode bytes).map safe_char

/-- The reader of `binascii` that is not strict, inside a group of four: how many digits it has, what is
left of the last one, and how many padding characters there were. -/
def a2b_base64 : List Char → Nat → Nat → Nat → Option (List UInt8)
  | [],quad_pos,_,_ => if quad_pos = 0 then some [] else none
  | c::rest,quad_pos,leftchar,pads =>
    if c = '=' then
      if 2 ≤ quad_pos then if 4 ≤ quad_pos + (pads + 1) then some [] else a2b_base64 rest quad_pos leftchar (pads + 1)
      else a2b_base64 rest quad_pos leftchar pads
    else match base64_value c with
      | none => a2b_base64 rest quad_pos leftchar pads
      | some this_ch => match quad_pos with
        | 0 => a2b_base64 rest 1 this_ch 0
        | 1 => (a2b_base64 rest 2 (this_ch % 16) 0).map (UInt8.ofNat (leftchar * 4 + this_ch / 16)::·)
        | 2 => (a2b_base64 rest 3 (this_ch % 4) 0).map (UInt8.ofNat (leftchar * 16 + this_ch / 4)::·)
        | _ => (a2b_base64 rest 0 0 0).map (UInt8.ofNat (leftchar * 64 + this_ch)::·)

def urlsafe_b64decode (text : List Char) : Option (List UInt8) := a2b_base64 (text.map unsafe_char) 0 0 0

/-- `rstrip` of one character. -/
def rstrip_char (c : Char) (text : List Char) : List Char := text.rdropWhile (· = c)

/-- `cursor + "=" * (-len(cursor) % 4)` -/
def pad (cursor : List Char) : List Char := cursor ++ List.replicate ((4 - cursor.length % 4) % 4) '='

def encode_cursor (bytes : List UInt8) : List Char := rstrip_char '=' (urlsafe_b64encode bytes)

def decode_cursor (cursor : List Char) : Option (List UInt8) := urlsafe_b64decode (pad cursor)

section Digits

variable {n : Nat} (small : n < 64) (rest : List Char) (leftchar pads : Nat)

include small

theorem a2b_first : a2b_base64 (base64_digit n::rest) 0 leftchar pads = a2b_base64 rest 1 n 0 := by
  obtain ⟨value,digit⟩ := base64_value_digit small
  simp only [a2b_base64,digit,value,↓reduceIte]

theorem a2b_second : a2b_base64 (base64_digit n::rest) 1 leftchar pads =
    (a2b_base64 rest 2 (n % 16) 0).map (UInt8.ofNat (leftchar * 4 + n / 16)::·) := by
  obtain ⟨value,digit⟩ := base64_value_digit small
  simp only [a2b_base64,digit,value,↓reduceIte]

theorem a2b_third : a2b_base64 (base64_digit n::rest) 2 leftchar pads =
    (a2b_base64 rest 3 (n % 4) 0).map (UInt8.ofNat (leftchar * 16 + n / 4)::·) := by
  obtain ⟨value,digit⟩ := base64_value_digit small
  simp only [a2b_base64,digit,value,↓reduceIte]

theorem a2b_fourth : a2b_base64 (base64_digit n::rest) 3 leftchar pads =
    (a2b_base64 rest 0 0 0).map (UInt8.ofNat (leftchar * 64 + n)::·) := by
  obtain ⟨value,digit⟩ := base64_value_digit small
  simp only [a2b_base64,digit,value,↓reduceIte]

end Digits

theorem a2b_b64encode (bytes : List UInt8) : a2b_base64 (b64encode bytes) 0 0 0 = some bytes := by
  induction bytes using b64encode.induct with
  | case1 a b c rest ih =>
    have ha : a.toNat < 256 := a.toNat_lt
    have hb : b.toNat < 256 := b.toNat_lt
    have hc : c.toNat < 256 := c.toNat_lt
    rw [b64encode,a2b_first (by omega),a2b_second (by omega),a2b_third (by omega),a2b_fourth (by omega),ih]
    simp only [Option.map_some]
    rw [byte_of_nat (b := a) (by omega),byte_of_nat (b := b) (by omega),byte_of_nat (b := c) (by omega)]
  | case2 a b =>
    have ha : a.toNat < 256 := a.toNat_lt
    have hb : b.toNat < 256 := b.toNat_lt
    rw [b64encode,a2b_first (by omega),a2b_second (by omega),a2b_third (by omega)]
    have done (left : Nat) : a2b_base64 ['='] 3 left 0 = some [] := rfl
    rw [done]
    simp only [Option.map_some]
    rw [byte_of_nat (b := a) (by omega),byte_of_nat (b := b) (by omega)]
  | case3 a =>
    have ha : a.toNat < 256 := a.toNat_lt
    rw [b64encode,a2b_first (by omega),a2b_second (by omega)]
    have done (left : Nat) : a2b_base64 ['=','='] 2 left 0 = some [] := rfl
    rw [done]
    simp only [Option.map_some]
    rw [byte_of_nat (b := a) (by omega)]
  | case4 => rfl

/-- The other digits are read back as they were. -/
theorem unsafe_safe {c : Char} (minus : c ≠ '-') (low : c ≠ '_') : unsafe_char (safe_char c) = c := by
  by_cases plus : c = '+'
  · rw [plus]
    rfl
  · by_cases slash : c = '/'
    · rw [slash]
      rfl
    · rw [safe_char,if_neg plus,if_neg slash,unsafe_char,if_neg minus,if_neg low]

def Plain (c : Char) : Prop := c ≠ '-' ∧ c ≠ '_'

theorem digit_plain {n : Nat} (small : n < 64) : Plain (base64_digit n) := by
  rw [Plain]
  interval_cases n <;> decide

theorem b64encode_plain (bytes : List UInt8) : ∀ c ∈ b64encode bytes, Plain c := by
  have pad_plain : Plain '=' := by
    rw [Plain]
    decide
  induction bytes using b64encode.induct with
  | case1 a b c rest ih =>
    have ha : a.toNat < 256 := a.toNat_lt
    have hb : b.toNat < 256 := b.toNat_lt
    have hc : c.toNat < 256 := c.toNat_lt
    rw [b64encode]
    simp only [List.forall_mem_cons]
    exact ⟨digit_plain (by omega),digit_plain (by omega),digit_plain (by omega),digit_plain (by omega),ih⟩
  | case2 a b =>
    have ha : a.toNat < 256 := a.toNat_lt
    have hb : b.toNat < 256 := b.toNat_lt
    rw [b64encode]
    simp only [List.forall_mem_cons]
    exact ⟨digit_plain (by omega),digit_plain (by omega),digit_plain (by omega),pad_plain,by simp⟩
  | case3 a =>
    have ha : a.toNat < 256 := a.toNat_lt
    rw [b64encode]
    simp only [List.forall_mem_cons]
    exact ⟨digit_plain (by omega),digit_plain (by omega),pad_plain,pad_plain,by simp⟩
  | case4 => exact fun c among => absurd among List.not_mem_nil

theorem urlsafe_b64decode_encode (bytes : List UInt8) : urlsafe_b64decode (urlsafe_b64encode bytes) = some bytes := by
  have back : (urlsafe_b64encode bytes).map unsafe_char = b64encode bytes := by
    rw [urlsafe_b64encode,List.map_map]
    refine (List.map_congr_left fun c among => ?_).trans (List.map_id _)
    obtain ⟨minus,low⟩ := b64encode_plain bytes c among
    exact unsafe_safe minus low
  rw [urlsafe_b64decode,back]
  exact a2b_b64encode bytes

/-! Stripping the padding and writing it again. -/

/-- Groups of four, of which only the last one is padded. -/
inductive Padded : List Char → Prop
  | nil : Padded []
  | three (p q r : Char) (third : r ≠ '=') : Padded [p,q,r,'=']
  | two (p q : Char) (second : q ≠ '=') : Padded [p,q,'=','=']
  | four (p q r s : Char) (fourth : s ≠ '=') {rest : List Char} (more : Padded rest) : Padded (p::q::r::s::rest)

theorem pad_four (p q r s : Char) (text : List Char) : pad (p::q::r::s::text) = p::q::r::s::pad text := by
  have length : (text.length + 1 + 1 + 1 + 1) % 4 = text.length % 4 := by omega
  simp [pad,length]

theorem rstrip_append {c last : Char} (front : List Char) (kept : last ≠ c) (text : List Char) :
    rstrip_char c (front ++ last::text) = front ++ last::rstrip_char c text := by
  induction text using List.reverseRecOn with
  | nil =>
    rw [rstrip_char,List.rdropWhile_concat,if_neg (by simpa using kept)]
    rfl
  | append_singleton text x ih =>
    rw [rstrip_char] at ih ⊢
    rw [← List.cons_append,← List.append_assoc,List.rdropWhile_concat,ih,rstrip_char,rstrip_char,List.rdropWhile_concat]
    split <;> simp

theorem Padded.pad_strip {text : List Char} (padded : Padded text) : pad (rstrip_char '=' text) = text := by
  induction padded with
  | nil => rfl
  | three p q r third =>
    have stripped : rstrip_char '=' [p,q,r,'='] = [p,q,r] := rstrip_append [p,q] third ['=']
    rw [stripped]
    rfl
  | two p q second =>
    have stripped : rstrip_char '=' [p,q,'=','='] = [p,q] := rstrip_append [p] second ['=','=']
    rw [stripped]
    rfl
  | @four p q r s fourth rest more ih =>
    have stripped : rstrip_char '=' (p::q::r::s::rest) = p::q::r::s::rstrip_char '=' rest := rstrip_append [p,q,r] fourth rest
    rw [stripped,pad_four,ih]

theorem safe_eq {c : Char} (apart : c ≠ '=') : safe_char c ≠ '=' := by
  rw [safe_char]
  split
  · decide
  · split
    · decide
    · exact apart

theorem urlsafe_padded (bytes : List UInt8) : Padded (urlsafe_b64encode bytes) := by
  rw [urlsafe_b64encode]
  induction bytes using b64encode.induct with
  | case1 a b c rest ih => exact .four _ _ _ _ (safe_eq (base64_value_digit (by omega)).2) ih
  | case2 a b => exact .three _ _ _ (safe_eq (base64_value_digit (by omega)).2)
  | case3 a => exact .two _ _ (safe_eq (base64_value_digit (by omega)).2)
  | case4 => exact .nil

/-- A cursor is read as the bytes it was made of, however many of its padding characters were cut off. -/
theorem decode_encode_cursor (bytes : List UInt8) : decode_cursor (encode_cursor bytes) = some bytes := by
  rw [decode_cursor,encode_cursor,(urlsafe_padded bytes).pad_strip]
  exact urlsafe_b64decode_encode bytes

end AetherVault.Lib.UrlText
