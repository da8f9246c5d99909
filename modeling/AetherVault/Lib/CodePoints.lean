import Mathlib.Data.List.DropRight
import Mathlib.Data.Nat.Digits.Defs

/-! Python's `str` as its code points, lone surrogates among them: `strip`, `split`, and
numbers to text and back. -/
namespace AetherVault.Lib.CodePoints

abbrev Str := List Nat

def lit (s : String) : Str := s.toList.map Char.toNat

/-- What `str.isspace` takes for a blank. -/
def is_space (n : Nat) : Bool :=
  9 ≤ n && n ≤ 13 || 28 ≤ n && n ≤ 32 || n = 0x85 || n = 0xa0 || n = 0x1680 || 0x2000 ≤ n && n ≤ 0x200a || n = 0x2028 ||
    n = 0x2029 || n = 0x202f || n = 0x205f || n = 0x3000

def lstrip (text : Str) : Str := text.dropWhile is_space

def rstrip (text : Str) : Str := text.rdropWhile is_space

def strip (text : Str) : Str := rstrip (lstrip text)

/-- `split(sep)`. -/
def split (sep : Nat) : Str → List Str
  | [] => [[]]
  | c::rest =>
    if c = sep then []::split sep rest
    else match split sep rest with
      | [] => [[c]]
      | first::more => (c::first)::more

/-- `split(sep, 1)`, when there is a separator. -/
def split_once (sep : Nat) : Str → Option (Str × Str)
  | [] => none
  | c::rest => if c = sep then some ([],rest) else (split_once sep rest).map fun parts => (c::parts.1,parts.2)

/-- `split()`: the runs that are not blank. -/
def words (text : Str) : List Str := (text.splitOnP is_space).filter (· ≠ [])

theorem split_none {sep : Nat} {text : Str} (absent : sep ∉ text) : split sep text = [text] := by
  induction text with
  | nil => rfl
  | cons c rest ih =>
    obtain ⟨differ,absent⟩ := not_or.mp (List.mem_cons.not.mp absent)
    simp [split,Ne.symm differ,ih absent]

/-- A line that ends at the separator. -/
theorem split_line {sep : Nat} {line rest : Str} (absent : sep ∉ line) :
    split sep (line ++ sep::rest) = line::split sep rest := by
  induction line with
  | nil => simp [split]
  | cons c line ih =>
    obtain ⟨differ,absent⟩ := not_or.mp (List.mem_cons.not.mp absent)
    simp [split,Ne.symm differ,ih absent]

theorem split_once_at {sep : Nat} {key val : Str} (absent : sep ∉ key) : split_once sep (key ++ sep::val) = some (key,val) := by
  induction key with
  | nil => simp [split_once]
  | cons c key ih =>
    obtain ⟨differ,absent⟩ := not_or.mp (List.mem_cons.not.mp absent)
    simp [split_once,Ne.symm differ,ih absent]

theorem split_once_none {sep : Nat} {text : Str} (absent : sep ∉ text) : split_once sep text = none := by
  induction text with
  | nil => rfl
  | cons c rest ih =>
    obtain ⟨differ,absent⟩ := not_or.mp (List.mem_cons.not.mp absent)
    simp [split_once,Ne.symm differ,ih absent]

/-! Stripping. -/

/-- Only what ends in a blank loses something. -/
theorem rstrip_concat (text : Str) (c : Nat) : rstrip (text ++ [c]) = if is_space c then rstrip text else text ++ [c] :=
  List.rdropWhile_concat _ _ _

theorem rstrip_of_mark {text : Str} (mark : ∀ c ∈ text.getLast?, is_space c = false) : rstrip text = text := by
  cases text using List.reverseRecOn with
  | nil => rfl
  | append_singleton front c =>
    have mark := mark c (by simp)
    rw [rstrip_concat,mark,if_neg (by simp)]

/-- A text that is left ends in no blank. -/
theorem rstrip_mark (text : Str) : ∀ c ∈ (rstrip text).getLast?, is_space c = false := by
  induction text using List.reverseRecOn with
  | nil => simp [rstrip]
  | append_singleton front d ih =>
    rw [rstrip_concat]
    split
    · exact ih
    · rename_i mark
      intro c last
      obtain rfl : d = c := by simpa using last
      exact Bool.eq_false_of_not_eq_true mark

theorem rstrip_append (front text : Str) :
    rstrip (front ++ text) = if rstrip text = [] then rstrip front else front ++ rstrip text := by
  induction text using List.reverseRecOn with
  | nil => simp [rstrip]
  | append_singleton text c ih =>
    rw [← List.append_assoc,rstrip_concat,rstrip_concat]
    split
    · exact ih
    · simp

/-! Numbers. -/

/-- The value of a decimal digit in any script; the ASCII digits have theirs. -/
structure Decimals where
  value : Nat → Option Nat
  ascii : ∀ d < 10, value (48 + d) = some d

/-- The ASCII digits alone. -/
def Decimals.plain : Decimals where
  value c := if 48 ≤ c ∧ c < 58 then some (c - 48) else none
  ascii d small := by
    rw [if_pos (by omega)]
    congr 1
    omega

def decimal (n : Nat) : Str := if n = 0 then [48] else ((Nat.digits 10 n).map (48 + ·)).reverse

/-- Digits, with single underscores between them. -/
def digits (decimals : Decimals) (text : Str) : Option Nat :=
  let parts := split 95 text
  if parts.any (·.isEmpty) then none
  else parts.flatten.foldlM (fun n c => (decimals.value c).map fun d => n * 10 + d) 0

/-- `int(text)`. -/
def int (decimals : Decimals) (text : Str) : Option Int :=
  match strip text with
  | 45::rest => (digits decimals rest).map fun n => -(n : Int)
  | 43::rest => (digits decimals rest).map fun n => (n : Int)
  | rest => (digits decimals rest).map fun n => (n : Int)

theorem decimal_digit {n c : Nat} (member : c ∈ decimal n) : 48 ≤ c ∧ c < 58 := by
  unfold decimal at member
  split at member
  · simp at member
    omega
  · obtain ⟨d,listed,rfl⟩ := List.mem_map.mp (List.mem_reverse.mp member)
    have := Nat.digits_lt_base (by decide) listed
    omega

theorem decimal_ne_nil (n : Nat) : decimal n ≠ [] := by
  unfold decimal
  split
  · simp
  · rename_i positive
    simpa [Nat.digits_eq_nil_iff_eq_zero] using positive

theorem fold_digits (decimals : Decimals) {ds : List Nat} (small : ∀ d ∈ ds, d < 10) (n : Nat) :
    (ds.map (48 + ·)).foldlM (fun n c => (decimals.value c).map fun d => n * 10 + d) n =
      some (ds.foldl (fun n d => n * 10 + d) n) := by
  induction ds generalizing n with
  | nil => rfl
  | cons d rest ih =>
    obtain ⟨first,rest_small⟩ := List.forall_mem_cons.mp small
    rw [List.map_cons,List.foldlM_cons,decimals.ascii d first]
    exact ih rest_small (n * 10 + d)

theorem digits_decimal (decimals : Decimals) (n : Nat) : digits decimals (decimal n) = some n := by
  have plain : split 95 (decimal n) = [decimal n] := by
    apply split_none
    intro underscore
    have := decimal_digit underscore
    omega
  simp only [digits,plain,List.any_cons,List.any_nil,Bool.or_false,List.isEmpty_iff,decimal_ne_nil,if_false,
    List.flatten_cons,List.flatten_nil,List.append_nil]
  unfold decimal
  split
  · rename_i zero
    simp [zero,decimals.ascii 0 (by decide)]
  · rw [← List.map_reverse,fold_digits decimals fun d listed => Nat.digits_lt_base (by decide) (List.mem_reverse.mp listed),
      List.foldl_reverse]
    congr 1
    calc (Nat.digits 10 n).foldr (fun d n => n * 10 + d) 0
        = Nat.ofDigits 10 (Nat.digits 10 n) := by simp [Nat.ofDigits_eq_foldr,Nat.add_comm,Nat.mul_comm]
      _ = n := Nat.ofDigits_digits 10 n

theorem strip_decimal (n : Nat) : strip (decimal n) = decimal n := by
  have mark : ∀ c ∈ decimal n, is_space c = false := by
    intro c member
    obtain ⟨least,most⟩ := decimal_digit member
    simp only [is_space,Bool.or_eq_false_iff,Bool.and_eq_false_iff,decide_eq_false_iff_not]
    omega
  have front : lstrip (decimal n) = decimal n := by
    unfold lstrip
    cases text : decimal n with
    | nil => rfl
    | cons c rest => simp [mark c (by rw [text]; exact List.mem_cons_self)]
  rw [strip,front]
  exact rstrip_of_mark fun c last => mark c (List.mem_of_getLast? last)

theorem int_decimal (decimals : Decimals) (n : Nat) : int decimals (decimal n) = some (n : Int) := by
  have first : ∀ c rest, decimal n = c::rest → c ≠ 45 ∧ c ≠ 43 := by
    intro c rest same
    have := decimal_digit (n := n) (c := c) (by rw [same]; exact List.mem_cons_self)
    omega
  unfold int
  rw [strip_decimal]
  split
  · rename_i rest same
    exact absurd rfl (first 45 rest same).1
  · rename_i rest same
    exact absurd rfl (first 43 rest same).2
  · rw [digits_decimal]
    rfl

end AetherVault.Lib.CodePoints
