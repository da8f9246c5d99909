import Mathlib.Data.List.Basic

/-! Python's text files and `splitlines`: which characters end a line, and that lines without them survive
being written and read. -/
namespace AetherVault.Lib.TextLines

def breaks (c : Char) : Bool :=
  let n := c.toNat
  10 ≤ n && n ≤ 13 || 28 ≤ n && n ≤ 30 || n = 0x85 || n = 0x2028 || n = 0x2029

/-- A text file that is read: `"\r\n"` and `"\r"` are line feeds. -/
def universal_newlines (after_return : Bool) : List Char → List Char
  | [] => []
  | c::rest =>
    if c = '\n' ∧ after_return = true then universal_newlines false rest
    else (if c = '\r' then '\n' else c)::universal_newlines (c = '\r') rest

def lines : List Char → List (List Char)
  | [] => []
  | c::rest =>
    if breaks c then []::lines rest
    else match lines rest with
      | [] => [[c]]
      | first::more => (c::first)::more

/-- `"\r\n"` ends one line. -/
def splitlines (text : List Char) : List (List Char) := lines (universal_newlines false text)

def read_text (raw : List Char) : List Char := universal_newlines false raw

/-- Windows ends lines with `"\r\n"`. -/
def write_text (windows : Bool) (text : List Char) : List Char :=
  if windows then text.flatMap fun c => if c = '\n' then ['\r','\n'] else [c] else text

/-- `"\n".join(lines)`, with a line feed after the last line. -/
def joined (ls : List (List Char)) : List Char := ['\n'].intercalate ls ++ if ls = [] then [] else ['\n']

def Unbroken (line : List Char) : Prop := ∀ c ∈ line, breaks c = false

theorem universal_plain {text : List Char} (plain : '\r' ∉ text) : universal_newlines false text = text := by
  induction text with
  | nil => rfl
  | cons c rest ih =>
    obtain ⟨apart,more⟩ := not_or.mp (List.mem_cons.not.mp plain)
    have apart' : c ≠ '\r' := fun same => apart same.symm
    simp [universal_newlines,apart',ih more]

theorem read_write (windows : Bool) {text : List Char} (plain : '\r' ∉ text) : read_text (write_text windows text) = text := by
  cases windows with
  | false => exact universal_plain plain
  | true =>
    rw [read_text,write_text,if_pos rfl]
    induction text with
    | nil => rfl
    | cons c rest ih =>
      obtain ⟨apart,more⟩ := not_or.mp (List.mem_cons.not.mp plain)
      have apart' : c ≠ '\r' := fun same => apart same.symm
      rw [List.flatMap_cons]
      by_cases feed : c = '\n'
      · simp [feed,universal_newlines,ih more]
      · simp [feed,apart',universal_newlines,ih more]

theorem lines_unbroken (text : List Char) : ∀ line ∈ lines text, Unbroken line := by
  induction text with
  | nil => exact fun line among => absurd among List.not_mem_nil
  | cons c rest ih =>
    rw [lines]
    cases ends : breaks c with
    | true => exact List.forall_mem_cons.mpr ⟨fun c among => absurd among List.not_mem_nil,ih⟩
    | false =>
      simp only [Bool.false_eq_true,↓reduceIte]
      cases split : lines rest with
      | nil => simp [Unbroken,ends]
      | cons first more =>
        rw [split] at ih
        obtain ⟨here,later⟩ := List.forall_mem_cons.mp ih
        exact List.forall_mem_cons.mpr ⟨List.forall_mem_cons.mpr ⟨ends,here⟩,later⟩

theorem lines_line {line : List Char} (unbroken : Unbroken line) (rest : List Char) :
    lines (line ++ '\n'::rest) = line::lines rest := by
  induction line with
  | nil => rfl
  | cons c line ih =>
    obtain ⟨here,later⟩ := List.forall_mem_cons.mp unbroken
    rw [List.cons_append,lines,here,ih later]
    rfl

theorem joined_eq (ls : List (List Char)) : joined ls = ls.flatMap fun line => line ++ ['\n'] := by
  rw [joined]
  induction ls with
  | nil => rfl
  | cons line more ih =>
    cases more with
    | nil => simp [List.intercalate]
    | cons next more =>
      rw [List.flatMap_cons,← ih]
      simp [List.intercalate]

theorem lines_joined {ls : List (List Char)} (unbroken : ∀ line ∈ ls, Unbroken line) : lines (joined ls) = ls := by
  rw [joined_eq]
  induction ls with
  | nil => rfl
  | cons line more ih =>
    obtain ⟨here,later⟩ := List.forall_mem_cons.mp unbroken
    rw [List.flatMap_cons,List.append_assoc]
    exact (lines_line here _).trans (congrArg _ (ih later))

theorem joined_plain {ls : List (List Char)} (unbroken : ∀ line ∈ ls, Unbroken line) : '\r' ∉ joined ls := by
  rw [joined_eq]
  intro among
  obtain ⟨line,inside,here⟩ := List.mem_flatMap.mp among
  rcases List.mem_append.mp here with here | feed
  · exact absurd (unbroken line inside _ here) (by decide)
  · exact absurd (List.mem_singleton.mp feed) (by decide)

/-- Lines that are written are the lines that are read, on either system. -/
theorem splitlines_written (windows : Bool) {ls : List (List Char)} (unbroken : ∀ line ∈ ls, Unbroken line) :
    splitlines (read_text (write_text windows (joined ls))) = ls := by
  have plain := joined_plain unbroken
  rw [read_write windows plain,splitlines,universal_plain plain]
  exact lines_joined unbroken

end AetherVault.Lib.TextLines
