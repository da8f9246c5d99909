import AetherVault.Lib.JsonText

/-! The text that `json.dumps` writes with an indent. -/
namespace AetherVault.Lib.JsonValue

def line_break (indent level : Nat) : List Char := '\n'::List.replicate (indent * level) ' '

/-- An empty sequence stays on one line. -/
def bracketed (indent level : Nat) (opening closing : Char) (parts : List (List Char)) : List Char :=
  if parts = [] then [opening,closing]
  else opening::(line_break indent (level + 1) ++ (','::line_break indent (level + 1)).intercalate parts ++
    (line_break indent level ++ [closing]))

mutual

def indented (indent level : Nat) : JsonValue → List Char
  | .null => ['n','u','l','l']
  | .boolean b => word b
  | .number n => n.first::n.rest
  | .string s => quoted s
  | .list items => bracketed indent level '[' ']' (indented_items indent (level + 1) items)
  | .dict members => bracketed indent level '{' '}' (indented_members indent (level + 1) members)

def indented_items (indent level : Nat) : List JsonValue → List (List Char)
  | [] => []
  | value::rest => indented indent level value::indented_items indent level rest

def indented_members (indent level : Nat) : List (String × JsonValue) → List (List Char)
  | [] => []
  | (name,value)::rest => (quoted name ++ [':',' '] ++ indented indent level value)::indented_members indent level rest

end

/-- A dictionary with a member goes on after its bracket with a line break, which the text on one line never does. -/
theorem indented_dict_ne (style : Style) (indent : Nat) {members : List (String × JsonValue)} (some_member : members ≠ [])
    (others : List (String × JsonValue)) : indented indent 0 (.dict members) ≠ text style (.dict others) := by
  cases members with
  | nil => contradiction
  | cons member rest =>
    obtain ⟨name,value⟩ := member
    intro same
    rw [indented,indented_members,bracketed,if_neg (List.cons_ne_nil _ _),text,line_break] at same
    have second := (List.cons.inj same).2
    cases others with
    | nil =>
      simp only [member_texts,joined,List.intercalate_nil,List.cons_append] at second
      exact absurd (List.cons.inj second).1 (by decide)
    | cons other more =>
      obtain ⟨c,left,opened,visible,-⟩ := joined_opens style (member_opens style other) (member_texts style more)
      have texts : member_texts style (other::more) = member_text style other::member_texts style more := by
        obtain ⟨name,value⟩ := other
        rfl
      rw [texts,opened] at second
      have newline : '\n' = c := (List.cons.inj second).1
      rw [← newline] at visible
      exact absurd visible (by decide)

/-! The text with an indent reads back. -/

def Style.line (indent level : Nat) : Style := ⟨line_break indent level,by
  rw [line_break,List.all_cons,List.all_replicate]
  simp⟩

def Style.spaced : Style := ⟨[' '],rfl⟩

theorem indented_items_eq (indent level : Nat) (items : List JsonValue) :
    indented_items indent level items = items.map (indented indent level) := by
  induction items with
  | nil => rfl
  | cons a more ih => rw [indented_items,ih,List.map_cons]

def indented_member (indent level : Nat) (member : String × JsonValue) : List Char :=
  quoted member.1 ++ ':'::Style.spaced.blanks ++ indented indent level member.2

theorem indented_members_eq (indent level : Nat) (members : List (String × JsonValue)) :
    indented_members indent level members = members.map (indented_member indent level) := by
  induction members with
  | nil => rfl
  | cons a more ih =>
    obtain ⟨name,value⟩ := a
    rw [indented_members,ih,List.map_cons]
    rfl

theorem indented_opens (indent level : Nat) (value : JsonValue) {close : Char} (bracket : close = ']' ∨ close = '}') :
    Opens close (indented indent level value) := by
  have apart {c : Char} (other : c ≠ ']' ∧ c ≠ '}') : c ≠ close := by rcases bracket with rfl | rfl <;> simp [other]
  cases value with
  | null => exact ⟨'n',_,rfl,rfl,apart (by simp)⟩
  | boolean b => cases b with
    | true => exact ⟨'t',_,rfl,rfl,apart (by simp)⟩
    | false => exact ⟨'f',_,rfl,rfl,apart (by simp)⟩
  | number n => exact ⟨n.first,_,rfl,numeral_start_visible n.starts,apart ⟨numeral_start_ne n.starts rfl,numeral_start_ne n.starts rfl⟩⟩
  | string s => exact ⟨'"',_,rfl,rfl,apart (by simp)⟩
  | list items =>
    rw [indented,bracketed]
    split
    · exact ⟨'[',_,rfl,rfl,apart (by simp)⟩
    · exact ⟨'[',_,rfl,rfl,apart (by simp)⟩
  | dict members =>
    rw [indented,bracketed]
    split
    · exact ⟨'{',_,rfl,rfl,apart (by simp)⟩
    · exact ⟨'{',_,rfl,rfl,apart (by simp)⟩

section Brackets

variable {α : Type} {read : List Char → Option (α × List Char)} {close : Char} {write : α → List Char} {items : List α}

/-- What stands between brackets, on one line when there is nothing. -/
theorem read_bracketed (indent level : Nat) (opening : Char) (sharp : close.isWhitespace = false ∧ numeral_char close = false ∧ close ≠ ',')
    (opens : ∀ a ∈ items, Opens close (write a)) (reads : ∀ a ∈ items, ∀ rest, Follows rest → read (write a ++ rest) = some (a,rest))
    (rest : List Char) : ∃ inner, bracketed indent level opening close (items.map write) ++ rest = opening::inner ∧
      read_sequence read close inner = some (items,rest) := by
  rw [bracketed]
  split
  · rename_i empty
    have none : items = [] := List.map_eq_nil_iff.mp empty
    exact ⟨close::rest,rfl,by simp [none,read_sequence,skip_space_cons sharp.1]⟩
  · refine ⟨_,rfl,?_⟩
    have all := read_sequence_joined sharp opens reads (.line indent (level + 1)) (.line indent (level + 1)) (.line indent level) rest
    simpa [Style.line,joined] using all

end Brackets

theorem length_lt_bracketed (indent level : Nat) (opening close : Char) {a : List Char} {parts : List (List Char)} (member : a ∈ parts) :
    a.length < (bracketed indent level opening close parts).length := by
  have short := length_le_joined (.line indent (level + 1)) member
  rw [joined] at short
  have some_part : parts ≠ [] := List.ne_nil_of_mem member
  have style : (Style.line indent (level + 1)).blanks = line_break indent (level + 1) := rfl
  rw [style] at short
  rw [bracketed,if_neg some_part]
  simp only [List.length_append,List.length_cons]
  omega

/-- By induction on the depth allowed, for which the length of the text is enough. -/
theorem read_value_indented (indent level : Nat) (value : JsonValue) {depth : Nat} (enough : (indented indent level value).length < depth)
    {rest : List Char} (follows : Follows rest) : read_value depth (indented indent level value ++ rest) = some (value,rest) := by
  induction depth generalizing level value rest with
  | zero => simp at enough
  | succ depth ih =>
    have plain (same : indented indent level value = text .tight value) :
        read_value (depth + 1) (indented indent level value ++ rest) = some (value,rest) := by
      rw [same] at enough ⊢
      exact read_value_text .tight value enough follows
    cases value with
    | null => exact plain rfl
    | boolean b => exact plain rfl
    | number n => exact plain rfl
    | string s => exact plain rfl
    | list items =>
      rw [indented,indented_items_eq] at enough ⊢
      have each : ∀ a ∈ items, ∀ rest, Follows rest → read_value depth (indented indent (level + 1) a ++ rest) = some (a,rest) := by
        intro a member rest follows
        have short := length_lt_bracketed indent level '[' ']' (List.mem_map_of_mem (f := indented indent (level + 1)) member)
        exact ih (level + 1) a (by omega) follows
      obtain ⟨inner,shape,all⟩ := read_bracketed indent level '[' (by decide) (fun a _ => indented_opens indent (level + 1) a (Or.inl rfl)) each rest
      rw [shape,read_value,if_neg (by decide),if_pos rfl,all]
      rfl
    | dict members =>
      rw [indented,indented_members_eq] at enough ⊢
      have each : ∀ a ∈ members, ∀ rest, Follows rest →
          read_member (read_value depth) (indented_member indent (level + 1) a ++ rest) = some (a,rest) := by
        intro a member rest follows
        have short := length_lt_bracketed indent level '{' '}' (List.mem_map_of_mem (f := indented_member indent (level + 1)) member)
        have part : (indented indent (level + 1) a.2).length ≤ (indented_member indent (level + 1) a).length := by
          rw [indented_member,List.length_append]
          exact Nat.le_add_left _ _
        exact read_member_quoted .spaced (indented_opens indent (level + 1) a.2 (Or.inr rfl)) (ih (level + 1) a.2 (by omega) follows)
      obtain ⟨inner,shape,all⟩ := read_bracketed indent level '{' (by decide)
        (fun a _ => ⟨'"',_,rfl,by decide,by decide⟩ : ∀ a ∈ members, Opens '}' (indented_member indent (level + 1) a)) each rest
      rw [shape,read_value,if_neg (by decide),if_neg (by decide),if_pos rfl,all]
      rfl

theorem loads_indented (indent : Nat) (value : JsonValue) : loads (indented indent 0 value) = some value := by
  have opened := (indented_opens indent 0 value (Or.inl rfl)).skip []
  have read : read_value ((indented indent 0 value).length + 1) (indented indent 0 value ++ []) = some (value,[]) :=
    read_value_indented indent 0 value (Nat.lt_succ_self _) (by simp [Follows])
  rw [List.append_nil] at opened read
  rw [loads,opened,read]
  rfl

end AetherVault.Lib.JsonValue
