import AetherVault.Lib.JsonReader
import Mathlib.Data.List.Chain
import Mathlib.Data.List.TakeDrop

/-! What the writer puts down the reader gives back: strings that may hold lone surrogates,
integers within the limits, lists and dictionaries. -/
namespace AetherVault.Lib.JsonReader

def high (code : Nat) : Prop := 0xd800 ≤ code ∧ code < 0xdc00

def low (code : Nat) : Prop := 0xdc00 ≤ code ∧ code < 0xe000

/-- Code points, with no high surrogate before a low one: the reader takes such a pair for one character. -/
structure Joined (t : Text) : Prop where
  valid : ∀ code ∈ t, code < 0x110000
  apart : t.IsChain fun a b => ¬(high a ∧ low b)

theorem Joined.of_basic {t : Text} (basic : ∀ code ∈ t, code < 0xd800) : Joined t := by
  constructor
  · intro code member
    exact lt_trans (basic code member) (by decide)
  · induction t with
    | nil => exact .nil
    | cons a rest ih =>
      cases rest with
      | nil => exact .singleton a
      | cons b rest =>
        refine .cons_cons ?_ (ih fun code member => basic code (List.mem_cons_of_mem _ member))
        intro pair
        have := basic a List.mem_cons_self
        have := pair.1.1
        omega

/-! Strings. -/

theorem scan_escape_unit {n : Nat} (small : n < 0x10000) {rest : List Char}
    (alone : high n → ∀ u ∈ JsonValue.read_unit rest, ¬low u.1) :
    scan_escape ('u'::JsonValue.hex4 n ++ rest) = some (n,rest) := by
  rw [List.cons_append,scan_escape,if_pos rfl,JsonValue.read_hex4_hex4 small,Option.map_some]
  cases next : JsonValue.read_unit rest with
  | none => rfl
  | some u =>
    simp only
    rw [if_neg]
    intro pair
    exact alone pair.1 u next pair.2

theorem scan_escape_units {a b : Nat} (first : 0xd800 ≤ a ∧ a < 0xdc00) (second : 0xdc00 ≤ b ∧ b < 0xe000) (rest : List Char) :
    scan_escape ('u'::JsonValue.hex4 a ++ (JsonValue.unit b ++ rest)) =
      some (0x10000 + (a - 0xd800) * 0x400 + (b - 0xdc00),rest) := by
  have next : JsonValue.read_unit (JsonValue.unit b ++ rest) = some (b,rest) := JsonValue.read_unit_unit (by omega) rest
  rw [List.cons_append,scan_escape,if_pos rfl,JsonValue.read_hex4_hex4 (by omega),Option.map_some]
  simp only [next,if_pos (And.intro first second)]

theorem scan_escape_pair {code : Nat} (astral : 0x10000 ≤ code) (valid : code < 0x110000) (rest : List Char) :
    scan_escape ('u'::JsonValue.hex4 (0xd800 + (code - 0x10000) / 0x400) ++
      (JsonValue.unit (0xdc00 + (code - 0x10000) % 0x400) ++ rest)) = some (code,rest) := by
  have whole (a b : Nat) (first : 0xd800 + (code - 0x10000) / 0x400 = a) (second : 0xdc00 + (code - 0x10000) % 0x400 = b) :
      0x10000 + (a - 0xd800) * 0x400 + (b - 0xdc00) = code := by omega
  rw [scan_escape_units (by omega) (by omega),whole _ _ rfl rfl]

theorem char_code {code : Nat} (valid : code < 0x110000) (plain : code < 0xd800 ∨ 0xe000 ≤ code) :
    (Char.ofNat code).toNat = code := by
  have scalar : code.isValidChar := by
    rcases plain with below | above
    · exact Or.inl below
    · exact Or.inr ⟨by omega,valid⟩
  rw [Char.ofNat,dif_pos scalar]
  rfl

/-- One character of a string, read up to what comes next. -/
theorem scan_escaped {code : Nat} (valid : code < 0x110000) {next : List Char}
    (alone : high code → ∀ u ∈ JsonValue.read_unit next, ¬low u.1) (n : Nat) :
    scan_chars (n+1) (escaped code ++ next) = (scan_chars n next).map fun more => (code::more.1,more.2) := by
  have from_escape {cs : List Char} (read : scan_escape cs = some (code,next)) :
      scan_chars (n+1) ('\\'::cs) = (scan_chars n next).map fun more => (code::more.1,more.2) := by
    rw [scan_chars,if_neg (by decide),if_neg (by decide),if_pos rfl,read]
  unfold escaped
  split
  · rename_i plain
    have same := char_code valid plain
    generalize Char.ofNat code = c at same
    subst same
    fun_cases JsonValue.escaped c with
    | case1 => subst c; exact from_escape rfl
    | case2 => subst c; exact from_escape rfl
    | case3 => subst c; exact from_escape rfl
    | case4 => subst c; exact from_escape rfl
    | case5 => subst c; exact from_escape rfl
    | case6 => subst c; exact from_escape rfl
    | case7 => subst c; exact from_escape rfl
    | case8 quote slash _ _ _ _ _ printable =>
      rw [List.singleton_append,scan_chars,if_neg quote,if_neg (Char.not_lt.mpr printable.1),if_neg slash]
    | case9 _ _ _ _ _ _ _ _ basic => exact from_escape (scan_escape_unit basic alone)
    | case10 _ _ _ _ _ _ _ _ astral =>
      rw [List.append_assoc]
      exact from_escape (scan_escape_pair (by omega) valid next)
  · exact from_escape (scan_escape_unit (by omega) alone)

/-- The first unit of a character is its own code, or a high surrogate. -/
theorem read_unit_escaped {code : Nat} (valid : code < 0x110000) (rest : List Char) :
    ∀ u ∈ JsonValue.read_unit (escaped code ++ rest), u.1 = code ∨ high u.1 := by
  have from_unit {n : Nat} (small : n < 0x10000) (more : List Char) (u : Nat × List Char)
      (read : u ∈ JsonValue.read_unit (JsonValue.unit n ++ more)) : u.1 = n := by
    rw [JsonValue.read_unit_unit small] at read
    rw [← Option.some.inj read]
  intro u read
  unfold escaped at read
  split at read
  · rename_i plain
    have same := char_code valid plain
    generalize Char.ofNat code = c at same read
    subst same
    revert read
    fun_cases JsonValue.escaped c with
    | case1 => subst c; intro read; contradiction
    | case2 => subst c; intro read; contradiction
    | case3 => subst c; intro read; contradiction
    | case4 => subst c; intro read; contradiction
    | case5 => subst c; intro read; contradiction
    | case6 => subst c; intro read; contradiction
    | case7 => subst c; intro read; contradiction
    | case8 quote slash _ _ _ _ _ printable =>
      intro read
      rw [List.singleton_append,JsonValue.read_unit.eq_def] at read
      split at read
      · rename_i same
        exact absurd (List.cons.inj same).1 slash
      · contradiction
    | case9 _ _ _ _ _ _ _ _ basic =>
      intro read
      exact Or.inl (from_unit basic rest u read)
    | case10 _ _ _ _ _ _ _ _ astral =>
      intro read
      rw [List.append_assoc] at read
      have first := from_unit (by omega) _ u read
      right
      unfold high
      omega
  · exact Or.inl (from_unit (by omega) rest u read)

theorem scan_chars_escaped {t : Text} (joined : Joined t) (rest : List Char) {n : Nat} (enough : t.length < n) :
    scan_chars n (t.flatMap escaped ++ '"'::rest) = .ok (t,rest) := by
  induction t generalizing n with
  | nil =>
    obtain ⟨n,rfl⟩ := Nat.exists_eq_succ_of_ne_zero (Nat.ne_of_gt (Nat.zero_lt_of_lt enough))
    rw [List.flatMap_nil,List.nil_append,scan_chars,if_pos rfl]
  | cons code t ih =>
    obtain ⟨n,rfl⟩ := Nat.exists_eq_succ_of_ne_zero (Nat.ne_of_gt (Nat.zero_lt_of_lt enough))
    have later : Joined t := ⟨fun c member => joined.valid c (List.mem_cons_of_mem _ member),joined.apart.tail⟩
    have alone : high code → ∀ u ∈ JsonValue.read_unit (t.flatMap escaped ++ '"'::rest), ¬low u.1 := by
      intro first u read
      cases t with
      | nil => contradiction
      | cons second t =>
        rw [List.flatMap_cons,List.append_assoc] at read
        rcases read_unit_escaped (joined.valid second (by simp)) _ u read with same | again
        · rw [same]
          exact fun follows => joined.apart.rel ⟨first,follows⟩
        · exact fun follows => absurd follows.1 (by have := again.2; omega)
    rw [List.flatMap_cons,List.append_assoc,scan_escaped (joined.valid code List.mem_cons_self) alone,
      ih later (by simpa using enough)]
    rfl

theorem escaped_nonempty (code : Nat) : 0 < (escaped code).length := by
  unfold escaped
  split
  · exact JsonValue.escaped_length _
  · simp [JsonValue.unit]

theorem length_flatMap_escaped (t : Text) : t.length ≤ (t.flatMap escaped).length := by
  induction t with
  | nil => simp
  | cons code t ih =>
    have one := escaped_nonempty code
    simp only [List.flatMap_cons,List.length_cons,List.length_append]
    omega

theorem scan_string_quoted {t : Text} (joined : Joined t) (rest : List Char) : scan_string (quoted t ++ rest) = .ok (t,rest) := by
  have long := length_flatMap_escaped t
  have shape : quoted t ++ rest = '"'::(t.flatMap escaped ++ '"'::rest) := by simp [quoted]
  rw [shape,scan_string,scan_chars_escaped joined]
  simp only [List.length_append,List.length_cons]
  omega

/-! Integers. -/

theorem toDigits_head {n : Nat} (positive : 0 < n) : ∃ d ds, Nat.toDigits 10 n = d::ds ∧ d ≠ '0' := by
  induction n using Nat.strongRecOn with
  | ind n ih =>
    by_cases small : n < 10
    · rw [Nat.toDigits_of_lt_base small]
      have nonzero : ∀ d < 10, 0 < d → d.digitChar ≠ '0' := by decide
      exact ⟨_,[],rfl,nonzero n small positive⟩
    · obtain ⟨d,ds,front,nonzero⟩ := ih (n / 10) (by omega) (by omega)
      rw [Nat.toDigits_of_base_le (by decide) (by omega),front]
      exact ⟨d,_,rfl,nonzero⟩

theorem digit_numeral {c : Char} (digit : c.isDigit = true) : numeral_char c = true := by
  rw [numeral_char,numeral_start_of_digit digit]
  rfl

theorem span_digits {ds rest : List Char} (digits : ∀ c ∈ ds, c.isDigit = true) (stop : ∀ c ∈ rest.head?, c.isDigit = false) :
    (ds ++ rest).span Char.isDigit = (ds,rest) := by
  rw [List.span_eq_takeWhile_dropWhile,List.takeWhile_append_of_pos digits,List.dropWhile_append_of_pos digits]
  cases rest with
  | nil => simp
  | cons c rest => simp [stop c rfl]

theorem whole_digits_toDigits (n : Nat) {rest : List Char} (stop : ∀ c ∈ rest.head?, c.isDigit = false) :
    whole_digits (Nat.toDigits 10 n ++ rest) = some (Nat.toDigits 10 n,rest) := by
  have digits : ∀ c ∈ Nat.toDigits 10 n, c.isDigit = true := fun c member =>
    Nat.isDigit_of_mem_toDigits (by decide) (by decide) member
  have span := span_digits digits stop
  by_cases positive : 0 < n
  · obtain ⟨d,ds,shape,nonzero⟩ := toDigits_head positive
    rw [shape] at span digits ⊢
    rw [List.cons_append,whole_digits.eq_def]
    split
    · rename_i same
      exact absurd (List.cons.inj same).1 nonzero
    · rename_i same
      obtain ⟨rfl,rfl⟩ := List.cons.inj same
      rw [if_pos (digits _ List.mem_cons_self),← List.cons_append,span]
    · contradiction
  · obtain rfl : n = 0 := by omega
    rfl

theorem no_fraction {rest : List Char} (follows : JsonValue.Follows rest) : scan_fraction rest = none := by
  unfold scan_fraction
  split
  · exact absurd (follows '.' rfl) (by decide)
  · rfl

theorem no_exponent {rest : List Char} (follows : JsonValue.Follows rest) : scan_exponent rest = none := by
  cases rest with
  | nil => rfl
  | cons c rest =>
    have other := follows c rfl
    rw [scan_exponent.eq_def]
    simp only
    rw [if_neg]
    intro letter
    rcases letter with rfl | rfl
    · exact absurd other (by decide)
    · exact absurd other (by decide)

theorem scan_number_toDigits [Double.Rounding] {limits : Limits} {n : Nat} (short : limits.digits = 0 ∨ (Nat.toDigits 10 n).length ≤ limits.digits)
    (negative : Bool) {rest : List Char} (follows : JsonValue.Follows rest) :
    scan_number limits negative (Nat.toDigits 10 n ++ rest) = .ok (.integer (if negative then -(n : Int) else n),rest) := by
  have stop : ∀ c ∈ rest.head?, c.isDigit = false := by
    intro c first
    by_contra digit
    have other := follows c first
    rw [digit_numeral (Bool.eq_true_of_not_eq_false digit)] at other
    contradiction
  have value : read_digits (Nat.toDigits 10 n) = n := Nat.ofDigitChars_ten_toDigits
  rw [scan_number,whole_digits_toDigits n stop]
  simp only [no_fraction follows,no_exponent follows,Option.getD_none,and_self,if_true,value]
  rw [if_neg (by omega)]

/-- How the text of a value begins. -/
def Opens (cs : List Char) : Prop := ∃ c rest, cs = c::rest ∧ space c = false ∧ c ≠ ']' ∧ c ≠ '}'

theorem Opens.skip {cs : List Char} (opens : Opens cs) (rest : List Char) : skip (cs ++ rest) = cs ++ rest := by
  obtain ⟨c,more,rfl,visible,-,-⟩ := opens
  rw [List.cons_append,JsonReader.skip,List.dropWhile_cons_of_neg (by simp [visible])]

theorem decimal_opens (n : Int) : Opens (decimal n) := by
  unfold decimal
  split
  · exact ⟨'-',_,rfl,by decide,by decide,by decide⟩
  · cases shape : Nat.toDigits 10 n.natAbs with
    | nil => exact absurd shape Nat.toDigits_ne_nil
    | cons d ds =>
      have digit : d.isDigit = true :=
        Nat.isDigit_of_mem_toDigits (b := 10) (by decide) (by decide) (by rw [shape]; exact List.mem_cons_self)
      refine ⟨d,ds,rfl,?_,?_,?_⟩
      · simp only [space,Bool.or_eq_false_iff,decide_eq_false_iff_not]
        refine ⟨⟨⟨?_,?_⟩,?_⟩,?_⟩ <;> rintro rfl <;> contradiction
      · rintro rfl
        contradiction
      · rintro rfl
        contradiction

/-! Sequences. -/

section Sequence

variable {α : Type} {read : Reader α} {close : Char} {write : α → List Char} {items : List α}

theorem joined_opens (style : JsonValue.Style) {cs : List Char} (opens : Opens cs) (more : List (List Char)) :
    Opens (JsonValue.joined style (cs::more)) := by
  obtain ⟨c,rest,rfl,visible,apart⟩ := opens
  cases more with
  | nil => exact ⟨c,rest,JsonValue.joined_singleton style _,visible,apart⟩
  | cons b more =>
    rw [JsonValue.joined_cons_cons]
    exact ⟨c,_,rfl,visible,apart⟩

theorem length_le_joined (style : JsonValue.Style) (opens : ∀ a ∈ items, Opens (write a)) :
    items.length ≤ (JsonValue.joined style (items.map write)).length := by
  induction items with
  | nil => simp
  | cons a more ih =>
    obtain ⟨c,rest,shape,-⟩ := opens a List.mem_cons_self
    cases more with
    | nil => simp [JsonValue.joined_singleton,shape]
    | cons b more =>
      have later := ih fun a member => opens a (List.mem_cons_of_mem _ member)
      simp only [List.map_cons,JsonValue.joined_cons_cons,shape,List.length_append,List.length_cons] at later ⊢
      omega

theorem skip_blanks (style : JsonValue.Style) (cs : List Char) : skip (style.blanks ++ cs) = skip cs := by
  apply List.dropWhile_append_of_pos
  intro c member
  have white := List.all_eq_true.mp style.blank c member
  simpa [space,Char.isWhitespace,or_assoc,or_comm,or_left_comm] using white

theorem skip_cons {c : Char} (visible : space c = false) (rest : List Char) : skip (c::rest) = c::rest := by
  rw [skip,List.dropWhile_cons_of_neg (by simp [visible])]

variable (sharp : space close = false ∧ numeral_char close = false ∧ close ≠ ',')
  (opens : ∀ a ∈ items, Opens (write a))
  (reads : ∀ a ∈ items, ∀ rest, JsonValue.Follows rest → read (write a ++ rest) = .ok (a,rest))
include sharp opens reads

theorem scan_items_joined (style : JsonValue.Style) (some_item : items ≠ []) {n : Nat} (enough : items.length ≤ n)
    (rest : List Char) :
    scan_items read close n (JsonValue.joined style (items.map write) ++ close::rest) = .ok (items,rest) := by
  induction items generalizing n with
  | nil => contradiction
  | cons a more ih =>
    obtain ⟨n,rfl⟩ := Nat.exists_eq_succ_of_ne_zero (Nat.ne_of_gt (Nat.lt_of_lt_of_le (Nat.zero_lt_succ _) enough))
    cases more with
    | nil =>
      have one := reads a List.mem_cons_self (close::rest) (by simpa [JsonValue.Follows] using sharp.2.1)
      rw [List.map_cons,List.map_nil,JsonValue.joined_singleton,scan_items,one]
      simp only [Except.bind,skip_cons sharp.1,if_true]
    | cons b more =>
      have one := reads a List.mem_cons_self (','::(style.blanks ++ (JsonValue.joined style ((b::more).map write) ++ close::rest)))
        (by simp [JsonValue.Follows]; decide)
      have begins := joined_opens style (opens b (by simp)) (more.map write)
      have later := ih (fun a member => opens a (List.mem_cons_of_mem _ member))
        (fun a member => reads a (List.mem_cons_of_mem _ member)) (by simp) (n := n) (by simpa using enough)
      rw [List.map_cons] at later one
      simp only [List.map_cons,JsonValue.joined_cons_cons,List.append_assoc,List.cons_append]
      rw [scan_items,one]
      simp only [Except.bind,skip_cons (show space ',' = false by decide),if_neg sharp.2.2.symm,if_true,skip_blanks,
        begins.skip,later]
      rfl

theorem scan_sequence_joined (style : JsonValue.Style) (bracket : close = ']' ∨ close = '}') (rest : List Char) :
    scan_sequence read close (JsonValue.joined style (items.map write) ++ close::rest) = .ok (items,rest) := by
  cases items with
  | nil =>
    rw [List.map_nil,scan_sequence,JsonValue.joined,List.intercalate_nil,List.nil_append,skip_cons sharp.1]
    simp only [if_true]
  | cons a more =>
    have long := length_le_joined style opens
    obtain ⟨c,text,begins,visible,square,curly⟩ := joined_opens style (opens a List.mem_cons_self) (more.map write)
    rw [← List.map_cons] at begins
    have elements := scan_items_joined sharp opens reads style (by simp)
      (n := (JsonValue.joined style ((a::more).map write) ++ close::rest).length) (by rw [List.length_append]; omega) rest
    have other : c ≠ close := by
      rcases bracket with rfl | rfl
      · exact square
      · exact curly
    rw [begins,List.cons_append] at elements ⊢
    rw [scan_sequence,skip_cons visible]
    simpa only [if_neg other] using elements

end Sequence

theorem collect_once {members : List (Text × Value)} (once : (members.map Prod.fst).Nodup) : collect members = members := by
  induction members using List.reverseRecOn with
  | nil => rfl
  | append_singleton front member ih =>
    rw [List.map_append,List.nodup_append] at once
    obtain ⟨front_once,-,apart⟩ := once
    rw [collect,List.foldl_append,List.foldl_cons,List.foldl_nil]
    change Dict.assign (collect front) member.1 member.2 = _
    rw [ih front_once]
    have fresh : member.1 ∉ front.map Prod.fst := fun listed => apart _ listed _ (by simp) rfl
    clear ih front_once apart
    induction front with
    | nil => rfl
    | cons first rest ih =>
      rw [List.map_cons,List.mem_cons,not_or] at fresh
      rw [List.cons_append,Dict.assign,if_neg (Ne.symm fresh.1),ih fresh.2]

theorem scan_value_once [Double.Rounding] (limits : Limits) (depth : Nat) : ∃ array object, scan_value limits depth = scan_once limits array object := by
  cases depth with
  | zero => exact ⟨_,_,rfl⟩
  | succ depth => exact ⟨_,_,rfl⟩

theorem scan_once_decimal [Double.Rounding] {limits : Limits} {array object : Reader Value} {n : Int} {rest : List Char} (follows : JsonValue.Follows rest)
    (short : limits.digits = 0 ∨ (Nat.toDigits 10 n.natAbs).length ≤ limits.digits) :
    scan_once limits array object (decimal n ++ rest) = .ok (.integer n,rest) := by
  have digits : ∀ c ∈ Nat.toDigits 10 n.natAbs, c.isDigit = true := fun c member =>
    Nat.isDigit_of_mem_toDigits (by decide) (by decide) member
  cases shape : Nat.toDigits 10 n.natAbs with
  | nil => exact absurd shape Nat.toDigits_ne_nil
  | cons d ds =>
    have digit : d.isDigit = true := digits d (by rw [shape]; exact List.mem_cons_self)
    have other {c : Char} (no_digit : c.isDigit = false) : d ≠ c := by
      rintro rfl
      rw [digit] at no_digit
      contradiction
    unfold decimal
    split
    · have read := scan_number_toDigits short true follows
      rw [if_pos rfl] at read
      rw [List.cons_append,scan_once,if_neg (by decide),if_neg (by decide),if_neg (by decide),if_neg (by decide),
        if_neg (by decide),if_neg (by decide),if_neg (by decide),if_neg (by decide),if_pos rfl,if_neg,read]
      · congr
        omega
      · rw [shape]
        exact fun same => other (by decide) (Option.some.inj same)
    · have read := scan_number_toDigits short false follows
      rw [shape,List.cons_append] at read ⊢
      rw [scan_once,if_neg (other (by decide)),if_neg (other (by decide)),if_neg (other (by decide)),if_neg (other (by decide)),
        if_neg (other (by decide)),if_neg (other (by decide)),if_neg (other (by decide)),if_neg (other (by decide)),
        if_neg (other (by decide)),read]
      congr
      simp only [Bool.false_eq_true,if_false]
      omega

/-! The texts keep to the characters that can be printed. -/

def printable (c : Char) : Bool := ' ' ≤ c && c ≤ '~'

theorem hex4_printable {n : Nat} (small : n < 0x10000) : ∀ c ∈ JsonValue.hex4 n, printable c = true := by
  have digit : ∀ k < 16, printable k.digitChar = true := by decide
  intro c member
  simp only [JsonValue.hex4,List.mem_cons,List.not_mem_nil,or_false] at member
  rcases member with rfl | rfl | rfl | rfl
  · exact digit _ (by omega)
  · exact digit _ (by omega)
  · exact digit _ (by omega)
  · exact digit _ (by omega)

theorem unit_printable {n : Nat} (small : n < 0x10000) : ∀ c ∈ JsonValue.unit n, printable c = true := by
  intro c member
  rcases List.mem_cons.mp member with rfl | member
  · decide
  · rcases List.mem_cons.mp member with rfl | member
    · decide
    · exact hex4_printable small c member

theorem escaped_printable {code : Nat} (valid : code < 0x110000) : ∀ c ∈ escaped code, printable c = true := by
  unfold escaped
  split
  · rename_i plain
    have same := char_code valid plain
    generalize Char.ofNat code = d at same
    subst same
    fun_cases JsonValue.escaped d with
    | case1 => exact List.all_eq_true.mp (by decide)
    | case2 => exact List.all_eq_true.mp (by decide)
    | case3 => exact List.all_eq_true.mp (by decide)
    | case4 => exact List.all_eq_true.mp (by decide)
    | case5 => exact List.all_eq_true.mp (by decide)
    | case6 => exact List.all_eq_true.mp (by decide)
    | case7 => exact List.all_eq_true.mp (by decide)
    | case8 _ _ _ _ _ _ _ between =>
      intro c member
      rw [List.mem_singleton.mp member]
      simpa [printable] using between
    | case9 _ _ _ _ _ _ _ _ basic => exact unit_printable basic
    | case10 =>
      intro c member
      rcases List.mem_append.mp member with first | second
      · exact unit_printable (by omega) c first
      · exact unit_printable (by omega) c second
  · exact unit_printable (by omega)

theorem quoted_printable {t : Text} (joined : Joined t) : ∀ c ∈ quoted t, printable c = true := by
  intro c member
  rcases List.mem_append.mp member with inside | last
  · rcases List.mem_cons.mp inside with rfl | inside
    · decide
    · obtain ⟨code,listed,written⟩ := List.mem_flatMap.mp inside
      exact escaped_printable (joined.valid code listed) c written
  · rw [List.mem_singleton.mp last]
    decide

theorem decimal_printable (n : Int) : ∀ c ∈ decimal n, printable c = true := by
  have digits : ∀ c ∈ Nat.toDigits 10 n.natAbs, printable c = true := by
    intro c member
    have digit := Nat.isDigit_of_mem_toDigits (by decide) (by decide) member
    simp only [Char.isDigit,Bool.and_eq_true,decide_eq_true_eq] at digit
    simp only [printable,Bool.and_eq_true,decide_eq_true_eq]
    constructor
    · exact le_trans (by decide) digit.1
    · exact le_trans digit.2 (by decide)
  unfold decimal
  split
  · intro c member
    rcases List.mem_cons.mp member with rfl | member
    · decide
    · exact digits c member
  · exact digits

theorem joined_printable {style : JsonValue.Style} (blanks : ∀ c ∈ style.blanks, printable c = true) {texts : List (List Char)}
    (each : ∀ text ∈ texts, ∀ c ∈ text, printable c = true) : ∀ c ∈ JsonValue.joined style texts, printable c = true := by
  induction texts with
  | nil => simp [JsonValue.joined]
  | cons first rest ih =>
    cases rest with
    | nil =>
      rw [JsonValue.joined_singleton]
      exact each first List.mem_cons_self
    | cons second rest =>
      intro c member
      rw [JsonValue.joined_cons_cons] at member
      rcases List.mem_append.mp member with inside | member
      · exact each first List.mem_cons_self c inside
      · rcases List.mem_cons.mp member with rfl | member
        · decide
        · rcases List.mem_append.mp member with blank | later
          · exact blanks c blank
          · exact ih (fun text listed => each text (List.mem_cons_of_mem _ listed)) c later

/-! Values. -/

/-- What comes back as it was: no float in it, joined strings, names once, and no deeper and no
longer than the reader goes. -/
inductive Storable (limits : Limits) : Nat → Value → Prop
  | null {depth : Nat} : Storable limits depth .null
  | boolean {depth : Nat} (b : Bool) : Storable limits depth (.boolean b)
  | integer {depth : Nat} {n : Int} (short : limits.digits = 0 ∨ (Nat.toDigits 10 n.natAbs).length ≤ limits.digits) :
      Storable limits depth (.integer n)
  | text {depth : Nat} {s : Text} (joined : Joined s) : Storable limits depth (.text s)
  | list {depth : Nat} {items : List Value} (each : ∀ value ∈ items, Storable limits depth value) :
      Storable limits (depth+1) (.list items)
  | dict {depth : Nat} {members : List (Text × Value)} (names : ∀ member ∈ members, Joined member.1)
      (once : (members.map Prod.fst).Nodup) (each : ∀ member ∈ members, Storable limits depth member.2) :
      Storable limits (depth+1) (.dict members)

theorem Storable.deeper {limits : Limits} {depth more : Nat} {value : Value} (storable : Storable limits depth value) (le : depth ≤ more) :
    Storable limits more value := by
  induction storable generalizing more with
  | null => exact .null
  | boolean b => exact .boolean b
  | integer short => exact .integer short
  | text joined => exact .text joined
  | list each ih =>
    obtain ⟨more,rfl⟩ := Nat.exists_eq_succ_of_ne_zero (Nat.ne_of_gt (Nat.lt_of_lt_of_le (Nat.zero_lt_succ _) le))
    exact .list fun value member => ih value member (Nat.le_of_succ_le_succ le)
  | dict names once each ih =>
    obtain ⟨more,rfl⟩ := Nat.exists_eq_succ_of_ne_zero (Nat.ne_of_gt (Nat.lt_of_lt_of_le (Nat.zero_lt_succ _) le))
    exact .dict names once fun member listed => ih member listed (Nat.le_of_succ_le_succ le)

/-- What `float.__repr__` makes of a number. -/
class FloatText where
  repr : Double → List Char

variable [FloatText]

mutual

/-- `json.dumps`, members in the order they are in. -/
def dumps (style : JsonValue.Style) : Value → List Char
  | .null => ['n','u','l','l']
  | .boolean b => JsonValue.word b
  | .integer n => decimal n
  | .float x => FloatText.repr x
  | .text s => quoted s
  | .list items => '['::JsonValue.joined style (dumps_items style items) ++ [']']
  | .dict members => '{'::JsonValue.joined style (dumps_members style members) ++ ['}']

def dumps_items (style : JsonValue.Style) : List Value → List (List Char)
  | [] => []
  | value::rest => dumps style value::dumps_items style rest

def dumps_members (style : JsonValue.Style) : List (Text × Value) → List (List Char)
  | [] => []
  | (name,value)::rest => (quoted name ++ ':'::style.blanks ++ dumps style value)::dumps_members style rest

end

def dumps_member (style : JsonValue.Style) (member : Text × Value) : List Char :=
  quoted member.1 ++ ':'::style.blanks ++ dumps style member.2

theorem dumps_items_eq (style : JsonValue.Style) (items : List Value) : dumps_items style items = items.map (dumps style) := by
  induction items with
  | nil => rfl
  | cons value rest ih => rw [dumps_items,ih,List.map_cons]

theorem dumps_members_eq (style : JsonValue.Style) (members : List (Text × Value)) :
    dumps_members style members = members.map (dumps_member style) := by
  induction members with
  | nil => rfl
  | cons member rest ih =>
    obtain ⟨name,value⟩ := member
    rw [dumps_members,ih,List.map_cons]
    rfl

theorem dumps_list (style : JsonValue.Style) (items : List Value) :
    dumps style (.list items) = '['::JsonValue.joined style (items.map (dumps style)) ++ [']'] := by
  rw [dumps,dumps_items_eq]

theorem dumps_dict (style : JsonValue.Style) (members : List (Text × Value)) :
    dumps style (.dict members) = '{'::JsonValue.joined style (members.map (dumps_member style)) ++ ['}'] := by
  rw [dumps,dumps_members_eq]

theorem Storable.opens {limits : Limits} {depth : Nat} {value : Value} (storable : Storable limits depth value)
    (style : JsonValue.Style) : Opens (dumps style value) := by
  cases storable with
  | null => exact ⟨'n',_,rfl,by decide,by decide,by decide⟩
  | boolean b =>
    cases b with
    | true => exact ⟨'t',_,rfl,by decide,by decide,by decide⟩
    | false => exact ⟨'f',_,rfl,by decide,by decide,by decide⟩
  | integer => exact decimal_opens _
  | text => exact ⟨'"',_,rfl,by decide,by decide,by decide⟩
  | list => exact ⟨'[',_,rfl,by decide,by decide,by decide⟩
  | dict => exact ⟨'{',_,rfl,by decide,by decide,by decide⟩

section Reading

variable [Double.Rounding] {limits : Limits} {style : JsonValue.Style}

theorem scan_member_dumps {depth : Nat} {member : Text × Value} {rest : List Char} (name : Joined member.1)
    (opens : Opens (dumps style member.2))
    (read : scan_value limits depth (dumps style member.2 ++ rest) = .ok (member.2,rest)) :
    scan_member (scan_value limits depth) (dumps_member style member ++ rest) = .ok (member,rest) := by
  simp only [dumps_member,List.append_assoc,List.cons_append,scan_member,scan_string_quoted name,Except.bind]
  rw [skip_cons (by decide)]
  simp only [if_true,skip_blanks,opens.skip,read]
  rfl

/-- By induction on what makes the value storable. -/
theorem scan_value_dumps {depth : Nat} {value : Value} (storable : Storable limits depth value) {rest : List Char}
    (follows : JsonValue.Follows rest) : scan_value limits depth (dumps style value ++ rest) = .ok (value,rest) := by
  induction storable generalizing rest with
  | @null depth =>
    obtain ⟨array,object,once⟩ := scan_value_once limits depth
    rw [once,dumps]
    simp [scan_once,scan_word]
  | @boolean depth b =>
    obtain ⟨array,object,once⟩ := scan_value_once limits depth
    rw [once,dumps]
    cases b with
    | true => simp [scan_once,scan_word,JsonValue.word]
    | false => simp [scan_once,scan_word,JsonValue.word]
  | @integer depth n short =>
    obtain ⟨array,object,once⟩ := scan_value_once limits depth
    rw [once,dumps,scan_once_decimal follows short]
  | @text depth s joined =>
    obtain ⟨array,object,once⟩ := scan_value_once limits depth
    have read := scan_string_quoted joined rest
    rw [quoted,List.append_assoc,List.cons_append] at read
    rw [once,dumps,quoted,List.append_assoc,List.cons_append,scan_once,if_pos rfl,read]
    rfl
  | @list depth items each ih =>
    have read := scan_sequence_joined (by decide) (fun value member => (each value member).opens style)
      (fun value member rest follows => ih value member follows) style (Or.inl rfl) rest
    rw [dumps_list,List.cons_append,List.cons_append,List.append_assoc,List.cons_append,List.nil_append,scan_value,scan_once,
      if_neg (by decide),if_neg (by decide),if_pos rfl,read]
    rfl
  | @dict depth members names distinct each ih =>
    have read : scan_sequence (scan_member (scan_value limits depth)) '}'
        (JsonValue.joined style (members.map (dumps_member style)) ++ '}'::rest) = .ok (members,rest) := scan_sequence_joined (by decide)
      (fun member listed => ⟨'"',_,rfl,by decide,by decide,by decide⟩)
      (fun member listed rest follows => scan_member_dumps (names member listed) ((each member listed).opens style)
        (ih member listed follows)) style (Or.inr rfl) rest
    rw [dumps_dict,List.cons_append,List.cons_append,List.append_assoc,List.cons_append,List.nil_append,scan_value,scan_once,
      if_neg (by decide),if_pos rfl,read]
    simp only [Except.map,collect_once distinct]

end Reading

theorem Storable.printable {limits : Limits} {style : JsonValue.Style} (blanks : ∀ c ∈ style.blanks, printable c = true)
    {depth : Nat} {value : Value} (storable : Storable limits depth value) : ∀ c ∈ dumps style value, printable c = true := by
  induction storable with
  | null =>
    rw [dumps]
    exact List.all_eq_true.mp (by decide)
  | boolean b =>
    rw [dumps]
    cases b with
    | true => exact List.all_eq_true.mp (by decide)
    | false => exact List.all_eq_true.mp (by decide)
  | integer => exact decimal_printable _
  | text joined => exact quoted_printable joined
  | @list depth items each ih =>
    have inside : ∀ c ∈ JsonValue.joined style (items.map (dumps style)), JsonReader.printable c = true := by
      apply joined_printable blanks
      intro text listed
      obtain ⟨value,member,rfl⟩ := List.mem_map.mp listed
      exact ih value member
    intro c member
    rw [dumps_list] at member
    rcases List.mem_append.mp member with front | last
    · rcases List.mem_cons.mp front with rfl | front
      · decide
      · exact inside c front
    · rw [List.mem_singleton.mp last]
      decide
  | @dict depth members names once each ih =>
    have inside : ∀ c ∈ JsonValue.joined style (members.map (dumps_member style)), JsonReader.printable c = true := by
      apply joined_printable blanks
      intro text written c inside
      obtain ⟨member,listed,rfl⟩ := List.mem_map.mp written
      rcases List.mem_append.mp inside with front | value
      · rcases List.mem_append.mp front with name | sep
        · exact quoted_printable (names member listed) c name
        · rcases List.mem_cons.mp sep with rfl | blank
          · decide
          · exact blanks c blank
      · exact ih member listed c value
    intro c member
    rw [dumps_dict] at member
    rcases List.mem_append.mp member with front | last
    · rcases List.mem_cons.mp front with rfl | front
      · decide
      · exact inside c front
    · rw [List.mem_singleton.mp last]
      decide

/-- What is written whole is read whole. -/
theorem loads_dumps [Double.Rounding] {limits : Limits} {style : JsonValue.Style}
    (blanks : ∀ c ∈ style.blanks, JsonReader.printable c = true) {value : Value}
    (storable : Storable limits limits.nesting value) : loads limits (dumps style value) = .ok value := by
  have opened := (storable.opens style).skip []
  have read : scan_value limits limits.nesting (dumps style value ++ []) = .ok (value,[]) :=
    scan_value_dumps storable (by simp [JsonValue.Follows])
  have no_mark : (dumps style value).head? ≠ some '\uFEFF' := by
    intro mark
    exact absurd (storable.printable blanks _ (List.mem_of_mem_head? mark)) (by decide)
  rw [List.append_nil] at opened read
  rw [loads,if_neg no_mark,opened,read]
  rfl

end AetherVault.Lib.JsonReader
