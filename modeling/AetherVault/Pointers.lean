import AetherVault.Lib.CodePoints

/-! The pointer files of `pointer.py`: what `create_pointer` writes and `parse_pointer` reads
back, also from a file that is opened in text mode. -/
namespace AetherVault.Pointers
open Lib.CodePoints

def hex_digit (c : Nat) : Bool := 48 ≤ c && c ≤ 57 || 97 ≤ c && c ≤ 102

/-- `^[a-f0-9]{64}$`, where `$` also matches before a last newline. -/
def sha256_shape (hash : Str) : Bool :=
  (hash.take 64).length = 64 && (hash.take 64).all hex_digit && (hash.drop 64 = [] || hash.drop 64 = [10])

def create_pointer (name sha256_hash : Str) (file_size : Int) : Except Str Str :=
  if !sha256_shape sha256_hash then .error (lit "Invalid SHA256 hash: " ++ sha256_hash)
  else if file_size < 0 then .error (lit "Invalid file size: -" ++ decimal file_size.natAbs)
  else if 10 ∈ name then .error (lit "Invalid filename (contains newline): " ++ name)
  else .ok (lit "version aether-vault-pointer v1\nhash-sha256 " ++ sha256_hash ++ lit "\nsize " ++
    decimal file_size.toNat ++ lit "\noriginal-path " ++ name ++ lit "\n")

structure Pointer where
  version : Str
  hash : Option Str
  size : Option Int
  original_path : Option Str
  deriving DecidableEq

variable (decimals : Decimals)

/-- A line that is not `key value` is passed over; a size that is no number ends the parse. -/
def parse_line (res : Pointer) (line : Str) : Option Pointer :=
  match split_once 32 line with
  | none => some res
  | some (key,val) =>
    if key = lit "hash-sha256" then some {res with hash := some val}
    else if key = lit "size" then (int decimals val).map fun size => {res with size := some size}
    else if key = lit "original-path" then some {res with original_path := some val}
    else some res

def parse_pointer (content : Str) : Option Pointer :=
  match split 10 (strip content) with
  | [] => none
  | first::lines =>
    if !(lit "version aether-vault-pointer").isPrefixOf first then none
    else (lines.foldlM (parse_line decimals) ⟨(words first).getLastD [],none,none,none⟩).bind fun res =>
      if res.hash.isNone || res.size.isNone then none else some res

/-- What a file opened for text holds: every line end is read as a newline. -/
def read_text : Str → Str
  | 13::10::rest => 10::read_text rest
  | 13::rest => 10::read_text rest
  | c::rest => c::read_text rest
  | [] => []

/-- The text is parsed to exactly this hash, size and file name. -/
def Recovers (text name sha256_hash : Str) (file_size : Int) : Prop :=
  ∃ res, parse_pointer decimals text = some res ∧ res.hash = some sha256_hash ∧ res.size = some file_size ∧
    res.original_path = some name

/-! The lines of a pointer file. -/

/-- The lines before the name, with a hash that holds no newline. -/
def front (hash : Str) (size : Nat) : Str :=
  lit "version aether-vault-pointer v1" ++ 10::(lit "hash-sha256 " ++ hash ++ 10::(lit "size " ++ decimal size ++ [10]))

variable {decimals}

theorem decimal_no_newline (n : Nat) : 10 ∉ decimal n := by
  intro newline
  have := decimal_digit newline
  omega

theorem parse_hash (res : Pointer) (hash : Str) :
    parse_line decimals res (lit "hash-sha256 " ++ hash) = some {res with hash := some hash} := by
  have parts : split_once 32 (lit "hash-sha256" ++ 32::hash) = some (lit "hash-sha256",hash) := split_once_at (by decide)
  have key : lit "hash-sha256 " = lit "hash-sha256" ++ [32] := by decide +kernel
  rw [parse_line,key,List.append_assoc,List.singleton_append,parts]
  rfl

theorem parse_size (res : Pointer) (size : Nat) :
    parse_line decimals res (lit "size " ++ decimal size) = some {res with size := some (size : Int)} := by
  have parts : split_once 32 (lit "size" ++ 32::decimal size) = some (lit "size",decimal size) := split_once_at (by decide)
  have key : lit "size " = lit "size" ++ [32] := by decide +kernel
  rw [parse_line,key,List.append_assoc,List.singleton_append,parts]
  simp only [int_decimal]
  rfl

theorem parse_path (res : Pointer) (name : Str) :
    parse_line decimals res (lit "original-path " ++ name) = some {res with original_path := some name} := by
  have parts : split_once 32 (lit "original-path" ++ 32::name) = some (lit "original-path",name) := split_once_at (by decide)
  have key : lit "original-path " = lit "original-path" ++ [32] := by decide +kernel
  rw [parse_line,key,List.append_assoc,List.singleton_append,parts]
  rfl

/-- The digest in a hash that passes the check. -/
theorem sha256_shape_digest {hash : Str} (shape : sha256_shape hash = true) :
    ∃ digest, digest.length = 64 ∧ 10 ∉ digest ∧ 13 ∉ digest ∧ (hash = digest ∨ hash = digest ++ [10]) := by
  simp only [sha256_shape,Bool.and_eq_true,Bool.or_eq_true,decide_eq_true_eq,List.all_eq_true] at shape
  obtain ⟨⟨size,digits⟩,ends⟩ := shape
  refine ⟨hash.take 64,size,?_,?_,?_⟩
  · exact fun newline => absurd (digits 10 newline) (by decide)
  · exact fun newline => absurd (digits 13 newline) (by decide)
  · have whole := List.take_append_drop 64 hash
    rcases ends with nothing | newline
    · rw [nothing,List.append_nil] at whole
      exact Or.inl whole.symm
    · rw [newline] at whole
      exact Or.inr whole.symm

theorem create_pointer_ok {name hash text : Str} {size : Int} (created : create_pointer name hash size = .ok text) :
    sha256_shape hash = true ∧ 0 ≤ size ∧ 10 ∉ name ∧
      text = front hash size.toNat ++ (lit "original-path " ++ name ++ [10]) := by
  unfold create_pointer at created
  split at created
  · contradiction
  · split at created
    · contradiction
    · split at created
      · contradiction
      · rename_i shape positive newline
        refine ⟨by simpa using shape,by omega,newline,?_⟩
        have begins : lit "version aether-vault-pointer v1\nhash-sha256 " =
            lit "version aether-vault-pointer v1" ++ 10::lit "hash-sha256 " := by decide +kernel
        have sizes : lit "\nsize " = 10::lit "size " := by decide +kernel
        have paths : lit "\noriginal-path " = 10::lit "original-path " := by decide +kernel
        have ends : lit "\n" = [10] := by decide +kernel
        rw [← Except.ok.inj created,begins,sizes,paths,ends]
        simp only [front,List.append_assoc,List.cons_append,List.nil_append]

/-- What is left of the last line. -/
def last_line (name : Str) : Str := if rstrip name = [] then lit "original-path" else lit "original-path " ++ rstrip name

theorem strip_text (hash : Str) (size : Nat) (name : Str) :
    strip (front hash size ++ (lit "original-path " ++ name ++ [10])) = front hash size ++ last_line name := by
  have left : lstrip (front hash size ++ (lit "original-path " ++ name ++ [10])) =
      front hash size ++ (lit "original-path " ++ name ++ [10]) := rfl
  have ends : rstrip (lit "original-path " ++ name ++ [10]) = last_line name := by
    rw [rstrip_concat,if_pos (by decide),rstrip_append]
    rfl
  have some_left : last_line name ≠ [] := by
    unfold last_line
    split
    · decide
    · exact List.append_ne_nil_of_left_ne_nil (by decide) _
  rw [strip,left,rstrip_append,ends,if_neg some_left]

theorem last_line_parsed (res : Pointer) (name : Str) :
    parse_line decimals res (last_line name) =
      some {res with original_path := if rstrip name = [] then res.original_path else some (rstrip name)} := by
  unfold last_line
  split
  · rfl
  · exact parse_path res _

theorem last_line_no_newline {name : Str} (plain : 10 ∉ name) : 10 ∉ last_line name := by
  have kept : 10 ∉ rstrip name := fun newline => plain ((List.rdropWhile_prefix _ _).subset newline)
  unfold last_line
  split
  · decide
  · exact fun newline => (List.mem_append.mp newline).elim (by decide) kept

/-- What a created pointer is parsed to. -/
theorem parse_created {hash digest name : Str} {size : Nat} (digest_line : 10 ∉ digest)
    (shape : hash = digest ∨ hash = digest ++ [10]) (plain : 10 ∉ name) :
    parse_pointer decimals (front hash size ++ (lit "original-path " ++ name ++ [10])) =
      some ⟨lit "v1",some digest,some (size : Int),if rstrip name = [] then none else some (rstrip name)⟩ := by
  have size_line : 10 ∉ lit "size " ++ decimal size :=
    fun newline => (List.mem_append.mp newline).elim (by decide) (decimal_no_newline size)
  have hash_line : 10 ∉ lit "hash-sha256 " ++ digest :=
    fun newline => (List.mem_append.mp newline).elim (by decide) digest_line
  have rest : split 10 (lit "size " ++ decimal size ++ 10::last_line name) =
      [lit "size " ++ decimal size,last_line name] := by
    rw [split_line size_line,split_none (last_line_no_newline plain)]
  have version : lit "version aether-vault-pointer v1" ++ 10::(lit "hash-sha256 " ++ hash ++ 10::(lit "size " ++ decimal size ++ [10])) ++
      last_line name = lit "version aether-vault-pointer v1" ++
        10::(lit "hash-sha256 " ++ hash ++ 10::(lit "size " ++ decimal size ++ 10::last_line name)) := by simp
  rw [parse_pointer,strip_text,front,version,split_line (by decide)]
  have begun : (lit "version aether-vault-pointer").isPrefixOf (lit "version aether-vault-pointer v1") = true := by decide
  have word : (words (lit "version aether-vault-pointer v1")).getLastD [] = lit "v1" := by decide
  have blank_line : ∀ res : Pointer, parse_line decimals res [] = some res := fun _ => rfl
  rcases shape with rfl | rfl
  · rw [split_line hash_line,rest]
    simp only [begun,word,Bool.not_true,Bool.false_eq_true,if_false,List.foldlM_cons,List.foldlM_nil,parse_hash,parse_size,
      last_line_parsed,Option.bind_eq_bind,Option.bind_some]
    rfl
  · have spare : lit "hash-sha256 " ++ (digest ++ [10]) ++ 10::(lit "size " ++ decimal size ++ 10::last_line name) =
        lit "hash-sha256 " ++ digest ++ 10::([] ++ 10::(lit "size " ++ decimal size ++ 10::last_line name)) := by simp
    rw [spare,split_line hash_line,split_line List.not_mem_nil,rest]
    simp only [begun,word,Bool.not_true,Bool.false_eq_true,if_false,List.foldlM_cons,List.foldlM_nil,parse_hash,parse_size,
      blank_line,last_line_parsed,Option.bind_eq_bind,Option.bind_some]
    rfl

/-! Reading a file in text mode. -/

theorem read_text_no_return (text : Str) : 13 ∉ read_text text := by
  fun_induction read_text text with
  | case1 rest ih => simpa using ih
  | case2 rest other ih => simpa using ih
  | case3 c rest other mark ih =>
    have differ : 13 ≠ c := fun same => mark same.symm
    simpa [differ] using ih
  | case4 => simp

theorem read_text_plain {text : Str} (plain : 13 ∉ text) : read_text text = text := by
  fun_induction read_text text with
  | case1 rest ih => simp at plain
  | case2 rest other ih => simp at plain
  | case3 c rest other mark ih => rw [ih fun later => plain (List.mem_cons_of_mem _ later)]
  | case4 => rfl

theorem split_chars {sep : Nat} {text line : Str} (listed : line ∈ split sep text) : ∀ c ∈ line, c ∈ text := by
  induction text generalizing line with
  | nil =>
    obtain rfl := List.mem_singleton.mp listed
    simp
  | cons d rest ih =>
    intro c member
    unfold split at listed
    split at listed
    · rcases List.mem_cons.mp listed with rfl | later
      · exact absurd member List.not_mem_nil
      · exact List.mem_cons_of_mem _ (ih later c member)
    · split at listed
      · obtain rfl := List.mem_singleton.mp listed
        exact List.mem_singleton.mp member ▸ List.mem_cons_self
      · rename_i first more parts
        rcases List.mem_cons.mp listed with rfl | later
        · rcases List.mem_cons.mp member with rfl | member
          · exact List.mem_cons_self
          · exact List.mem_cons_of_mem _ (ih (by rw [parts]; exact List.mem_cons_self) c member)
        · exact List.mem_cons_of_mem _ (ih (by rw [parts]; exact List.mem_cons_of_mem _ later) c member)

theorem split_once_chars {sep : Nat} {text key val : Str} (parts : split_once sep text = some (key,val)) :
    ∀ c ∈ val, c ∈ text := by
  induction text generalizing key with
  | nil => contradiction
  | cons d rest ih =>
    intro c member
    unfold split_once at parts
    split at parts
    · obtain ⟨-,rfl⟩ := Prod.mk.inj (Option.some.inj parts)
      exact List.mem_cons_of_mem _ member
    · obtain ⟨later,found,same⟩ := Option.map_eq_some_iff.mp parts
      obtain ⟨-,rfl⟩ := Prod.mk.inj same
      exact List.mem_cons_of_mem _ (ih found c member)

theorem parse_line_path {res after : Pointer} {line path : Str} (parsed : parse_line decimals res line = some after)
    (found : after.original_path = some path) : res.original_path = some path ∨ ∀ c ∈ path, c ∈ line := by
  unfold parse_line at parsed
  split at parsed
  · exact Or.inl (Option.some.inj parsed ▸ found)
  · rename_i key val parts
    split at parsed
    · obtain rfl := Option.some.inj parsed
      exact Or.inl found
    · split at parsed
      · obtain ⟨size,-,rfl⟩ := Option.map_eq_some_iff.mp parsed
        exact Or.inl found
      · split at parsed
        · rw [← Option.some.inj parsed] at found
          obtain rfl := Option.some.inj found
          exact Or.inr (split_once_chars parts)
        · exact Or.inl (Option.some.inj parsed ▸ found)

theorem parse_lines_path {lines : List Str} {res after : Pointer} {path : Str}
    (parsed : lines.foldlM (parse_line decimals) res = some after) (found : after.original_path = some path) :
    res.original_path = some path ∨ ∃ line ∈ lines, ∀ c ∈ path, c ∈ line := by
  induction lines generalizing res with
  | nil => exact Or.inl (Option.some.inj parsed ▸ found)
  | cons line rest ih =>
    rw [List.foldlM_cons] at parsed
    obtain ⟨next,first,later⟩ := Option.bind_eq_some_iff.mp parsed
    rcases ih later with held | listed
    · exact (parse_line_path first held).imp_right fun inside => ⟨line,List.mem_cons_self,inside⟩
    · obtain ⟨other,member,inside⟩ := listed
      exact Or.inr ⟨other,List.mem_cons_of_mem _ member,inside⟩

/-- A parsed path is made of characters of the text. -/
theorem parsed_path_chars {text path : Str} {res : Pointer} (parsed : parse_pointer decimals text = some res)
    (found : res.original_path = some path) : ∀ c ∈ path, c ∈ text := by
  unfold parse_pointer at parsed
  split at parsed
  · contradiction
  · rename_i first lines parts
    split at parsed
    · contradiction
    · obtain ⟨read,folded,kept⟩ := Option.bind_eq_some_iff.mp parsed
      split at kept
      · contradiction
      · obtain rfl := Option.some.inj kept
        rcases parse_lines_path folded found with none_yet | listed
        · contradiction
        · obtain ⟨line,member,inside⟩ := listed
          intro c in_path
          have stripped : c ∈ strip text := split_chars (by rw [parts]; exact List.mem_cons_of_mem _ member) c (inside c in_path)
          exact (List.dropWhile_suffix _).subset ((List.rdropWhile_prefix _ _).subset stripped)

theorem rstrip_kept_iff (name : Str) :
    (if rstrip name = [] then none else some (rstrip name)) = some name ↔ ∃ c ∈ name.getLast?, is_space c = false := by
  constructor
  · intro kept
    split at kept
    · contradiction
    · rename_i some_left
      have same := Option.some.inj kept
      obtain ⟨c,last⟩ := Option.isSome_iff_exists.mp (List.getLast?_isSome.mpr some_left)
      exact ⟨c,same ▸ last,rstrip_mark name c last⟩
  · intro ends
    obtain ⟨c,last,mark⟩ := ends
    have same : rstrip name = name := rstrip_of_mark fun d final => by
      rw [← Option.some.inj (last.symm.trans final)]
      exact mark
    have some_left : name ≠ [] := List.ne_nil_of_mem (List.mem_of_getLast? last)
    rw [same,if_neg some_left]

/-- Among the texts that `create_pointer` writes, those with a digest of no newline and a name
that ends in no blank are recovered; from a file, where the name has no carriage return besides. -/
theorem pointer_round_trip_iff (decimals : Decimals) {name sha256_hash text : Str} {file_size : Int}
    (created : create_pointer name sha256_hash file_size = .ok text) :
    (Recovers decimals text name sha256_hash file_size ↔
      sha256_hash.length = 64 ∧ ∃ c ∈ name.getLast?, is_space c = false) ∧
      (Recovers decimals (read_text text) name sha256_hash file_size ↔
        (sha256_hash.length = 64 ∧ ∃ c ∈ name.getLast?, is_space c = false) ∧ 13 ∉ name) := by
  obtain ⟨shape,positive,plain,written⟩ := create_pointer_ok created
  obtain ⟨digest,length,digest_line,digest_plain,same⟩ := sha256_shape_digest shape
  have size : ((file_size.toNat : Nat) : Int) = file_size := Int.toNat_of_nonneg positive
  have parsed : parse_pointer decimals text =
      some ⟨lit "v1",some digest,some (file_size.toNat : Int),if rstrip name = [] then none else some (rstrip name)⟩ :=
    written ▸ parse_created digest_line same plain
  have whole : digest = sha256_hash ↔ sha256_hash.length = 64 := by
    rcases same with rfl | rfl
    · simp [length]
    · simp [length]
  have direct : Recovers decimals text name sha256_hash file_size ↔
      sha256_hash.length = 64 ∧ ∃ c ∈ name.getLast?, is_space c = false := by
    rw [← whole,← rstrip_kept_iff,Recovers,parsed,size]
    simp
  refine ⟨direct,?_⟩
  by_cases returns : 13 ∈ name
  · have lost : ¬Recovers decimals (read_text text) name sha256_hash file_size := by
      intro recovers
      obtain ⟨res,again,-,-,path⟩ := recovers
      exact read_text_no_return text (parsed_path_chars again path 13 returns)
    exact iff_of_false lost fun both => both.2 returns
  · have unchanged : read_text text = text := by
      apply read_text_plain
      have digits : 13 ∉ decimal file_size.toNat := fun mark => by
        have := decimal_digit mark
        omega
      have hash_plain : 13 ∉ sha256_hash := by
        rcases same with rfl | rfl
        · exact digest_plain
        · simpa using digest_plain
      have literals : 13 ∉ lit "version aether-vault-pointer v1" ∧ 13 ∉ lit "hash-sha256 " ∧ 13 ∉ lit "size " ∧
          13 ∉ lit "original-path " := by decide
      rw [written]
      simp [front,digits,hash_plain,literals,returns]
    rw [unchanged,direct]
    simp [returns]

/-- A name with a carriage return is recovered from the text and not from its file. -/
theorem pointer_round_trip_iff_return : let name := 13::lit "model.bin"
    ∃ text, create_pointer name (List.replicate 64 97) 70 = .ok text ∧ Recovers Decimals.plain text name (List.replicate 64 97) 70 ∧
      ¬Recovers Decimals.plain (read_text text) name (List.replicate 64 97) 70 := by
  have created : create_pointer (13::lit "model.bin") (List.replicate 64 97) 70 = .ok (front (List.replicate 64 97) 70 ++
      (lit "original-path " ++ 13::lit "model.bin" ++ [10])) := by decide +kernel
  obtain ⟨direct,through_file⟩ := pointer_round_trip_iff Decimals.plain created
  refine ⟨_,created,direct.mpr ⟨by decide,110,by decide,by decide⟩,fun recovers => ?_⟩
  exact (through_file.mp recovers).2 (by decide)

/-- A file name may end in a blank; the parsed one does not. -/
theorem trailing_blank_lost : let name := lit "model "
    ∃ text, create_pointer name (List.replicate 64 97) 70 = .ok text ∧
      ¬Recovers Decimals.plain text name (List.replicate 64 97) 70 := by
  refine ⟨_,rfl,fun recovers => ?_⟩
  obtain ⟨res,parsed,-,-,path⟩ := recovers
  have stripped : parse_pointer Decimals.plain (lit "version aether-vault-pointer v1\nhash-sha256 " ++ List.replicate 64 97 ++
      lit "\nsize 70\noriginal-path model \n") = some ⟨lit "v1",some (List.replicate 64 97),some 70,some (lit "model")⟩ := by
    decide +kernel
  have same : res.original_path = some (lit "model") := by
    have := Option.some.inj (parsed.symm.trans stripped)
    rw [this]
  exact absurd (path.symm.trans same) (by decide)

end AetherVault.Pointers
