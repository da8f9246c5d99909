import AetherVault.Lib.JsonText
import AetherVault.Lib.PyString
import AetherVault.Lib.TextLines
import AetherVault.Signing

/-! The `.env` file beside a compose file (`docker_runtime`), and the map of users that one of its lines is
(`AV_AUTH_USERS`). -/
namespace AetherVault.EnvFile

open Lib Lib.TextLines Lib.PyString

def replace (c : Char) (new text : List Char) : List Char := text.flatMap fun x => if x = c then new else [x]

/-- `replace` of a pair of characters, from the left and not over itself. -/
def replace_pair (a b new : Char) : List Char → List Char
  | x::y::rest => if x = a ∧ y = b then new::replace_pair a b new rest else x::replace_pair a b new (y::rest)
  | short => short

def _quote_env_value (value : List Char) : List Char := '"'::replace '"' ['\\','"'] (replace '\\' ['\\','\\'] value) ++ ['"']

def _unquote_env_value (value : List Char) : List Char :=
  let value := strip value
  if 2 ≤ value.length ∧ value.head? = some '"' ∧ value.getLast? = some '"' then
    replace_pair '\\' '\\' '\\' (replace_pair '\\' '"' '"' value.tail.dropLast)
  else value

/-- A name of a setting. -/
structure Key where
  name : List Char
  plain : ∀ c ∈ name, c ≠ '=' ∧ is_space c = false
  deriving DecidableEq

theorem plain_of_all {name : List Char} (all : name.all (fun c => c != '=' && !is_space c) = true) :
    ∀ c ∈ name, c ≠ '=' ∧ is_space c = false := by
  intro c among
  simpa using List.all_eq_true.mp all c among

def AV_API_TOKEN : Key where
  name := ['A','V','_','A','P','I','_','T','O','K','E','N']
  plain := plain_of_all rfl

def AV_AUTH_USERS : Key where
  name := ['A','V','_','A','U','T','H','_','U','S','E','R','S']
  plain := plain_of_all rfl

/-- `line.strip().startswith(f"{key}=")` -/
def sets (key : Key) (line : List Char) : Bool := (key.name ++ ['=']).isPrefixOf (strip line)

/-- `line.split("=", 1)[1]` -/
def after_equals (line : List Char) : List Char := (line.dropWhile (· ≠ '=')).tail

/-- The file's lines; none when there is no file. -/
def env_lines (file : Option (List Char)) : List (List Char) := file.elim [] fun raw => splitlines (read_text raw)

def read_env_token (file : Option (List Char)) (key : Key) : Option (List Char) :=
  ((env_lines file).find? (sets key)).bind fun line =>
    (some (_unquote_env_value (after_equals line))).filter (· ≠ [])

/-- `f"{key}={_quote_env_value(token)}"` -/
def setting (key : Key) (token : List Char) : List Char := key.name ++ '='::_quote_env_value token

def write_env_token (windows : Bool) (file : Option (List Char)) (token : Option (List Char)) (key : Key) : List Char :=
  let kept := (env_lines file).filter fun line => !sets key line
  let new_lines := match token.filter (· ≠ []) with
    | none => kept
    | some token => kept ++ [setting key token]
  write_text windows (joined new_lines)

/-! Quoting. -/

def escape (c : Char) : List Char := if c = '\\' then ['\\','\\'] else if c = '"' then ['\\','"'] else [c]

def half_escape (c : Char) : List Char := if c = '\\' then ['\\','\\'] else [c]

theorem quoted_inner (value : List Char) : replace '"' ['\\','"'] (replace '\\' ['\\','\\'] value) = value.flatMap escape := by
  rw [replace,replace,List.flatMap_assoc]
  refine List.flatMap_congr fun c _ => ?_
  rw [escape]
  by_cases back : c = '\\'
  · subst back
    rfl
  · by_cases quote : c = '"'
    · subst quote
      rfl
    · simp [back,quote]

/-- A quote stands only behind the backslash that escapes it. -/
theorem escape_head (value : List Char) : (value.flatMap escape).head? ≠ some '"' := by
  cases value with
  | nil => simp
  | cons c rest =>
    rw [List.flatMap_cons,escape]
    by_cases back : c = '\\'
    · simp [back]
    · by_cases quote : c = '"'
      · simp [quote]
      · simp [back,quote]

theorem replace_pair_apart {a b new x : Char} (rest : List Char) (apart : x ≠ a ∨ rest.head? ≠ some b) :
    replace_pair a b new (x::rest) = x::replace_pair a b new rest := by
  cases rest with
  | nil => rfl
  | cons y rest =>
    rw [replace_pair,if_neg]
    rintro ⟨rfl,rfl⟩
    rcases apart with other | other
    · exact other rfl
    · exact other rfl

theorem unescape_quotes (value : List Char) :
    replace_pair '\\' '"' '"' (value.flatMap escape) = value.flatMap half_escape := by
  induction value with
  | nil => rfl
  | cons c rest ih =>
    rw [List.flatMap_cons,List.flatMap_cons,escape,half_escape]
    by_cases back : c = '\\'
    · simp only [back,↓reduceIte,List.cons_append,List.nil_append]
      rw [replace_pair_apart _ (.inr (by simp)),replace_pair_apart _ (.inr (escape_head rest)),ih]
    · by_cases quote : c = '"'
      · rw [if_neg back,if_pos quote,if_neg back,List.cons_append,List.singleton_append,replace_pair,
          if_pos ⟨rfl,rfl⟩,ih,quote,List.singleton_append]
      · rw [if_neg back,if_neg quote,if_neg back,List.singleton_append,List.singleton_append,
          replace_pair_apart _ (.inl back),ih]

theorem unescape_backs (value : List Char) : replace_pair '\\' '\\' '\\' (value.flatMap half_escape) = value := by
  induction value with
  | nil => rfl
  | cons c rest ih =>
    rw [List.flatMap_cons,half_escape]
    by_cases back : c = '\\'
    · rw [if_pos back,List.cons_append,List.cons_append,List.nil_append,replace_pair,if_pos ⟨rfl,rfl⟩,ih,back]
    · rw [if_neg back,List.singleton_append,replace_pair_apart _ (.inl back),ih]

theorem dropWhile_head {p : Char → Bool} {text : List Char} (visible : ∀ c ∈ text.head?, p c = false) :
    text.dropWhile p = text := by
  cases text with
  | nil => rfl
  | cons c rest => exact List.dropWhile_cons_of_neg (Bool.eq_false_iff.mp (visible c rfl))

theorem strip_visible {text : List Char} (first : ∀ c ∈ text.head?, is_space c = false)
    (last : ∀ c ∈ text.getLast?, is_space c = false) : strip text = text := by
  rw [strip,lstrip,dropWhile_head first,rstrip,dropWhile_head,List.reverse_reverse]
  rwa [List.head?_reverse]

theorem quoted_last (value : List Char) : (_quote_env_value value).getLast? = some '"' := List.getLast?_concat

theorem quote_visible : is_space '"' = false := by decide

theorem unquote_quote (value : List Char) : _unquote_env_value (_quote_env_value value) = value := by
  have kept : strip (_quote_env_value value) = _quote_env_value value := by
    apply strip_visible
    · rintro c first
      rw [← Option.mem_some_iff.mp first,quote_visible]
    · rintro c last
      rw [quoted_last] at last
      rw [← Option.mem_some_iff.mp last,quote_visible]
  have long : 2 ≤ (_quote_env_value value).length := by
    simp [_quote_env_value]
  simp only [_unquote_env_value,kept]
  rw [if_pos ⟨long,rfl,quoted_last value⟩]
  have inner : (_quote_env_value value).tail.dropLast = value.flatMap escape := by
    rw [_quote_env_value,List.cons_append,List.tail_cons,List.dropLast_concat,quoted_inner]
  rw [inner,unescape_quotes,unescape_backs]

/-! One line. -/

theorem prefix_same {a b : List Char} (plain : '=' ∉ a) (plain' : '=' ∉ b) (rest : List Char) :
    a ++ ['='] <+: b ++ '='::rest ↔ a = b := by
  induction a generalizing b with
  | nil =>
    cases b with
    | nil => simp
    | cons d b =>
      have apart : '=' ≠ d := fun same => plain' (same ▸ List.mem_cons_self)
      simp [List.cons_prefix_cons,apart]
  | cons c a ih =>
    obtain ⟨apart,more⟩ := not_or.mp (List.mem_cons.not.mp plain)
    cases b with
    | nil => simp [List.cons_prefix_cons,Ne.symm apart]
    | cons d b =>
      have more' : '=' ∉ b := fun among => plain' (List.mem_cons_of_mem d among)
      rw [List.cons_append,List.cons_append,List.cons_prefix_cons,ih more more',List.cons.injEq]

theorem Key.no_equals (key : Key) : '=' ∉ key.name := fun among => (key.plain '=' among).1 rfl

theorem Key.ext_iff {k key : Key} : k = key ↔ k.name = key.name := by
  cases k
  cases key
  exact Key.mk.injEq .. ▸ Iff.rfl

theorem strip_setting (key : Key) (token : List Char) : strip (setting key token) = setting key token := by
  apply strip_visible
  · intro c first
    rw [setting,List.head?_append] at first
    cases named : key.name with
    | nil =>
      rw [named] at first
      rw [← Option.mem_some_iff.mp first]
      decide
    | cons d name =>
      rw [named] at first
      rw [← Option.mem_some_iff.mp first]
      exact (key.plain d (named ▸ List.mem_cons_self)).2
  · intro c last
    rw [setting,List.getLast?_append,List.getLast?_cons,quoted_last] at last
    rw [← Option.mem_some_iff.mp last]
    exact quote_visible

theorem sets_setting (k key : Key) (token : List Char) : sets k (setting key token) = true ↔ k = key := by
  rw [sets,strip_setting,List.isPrefixOf_iff_prefix,setting,prefix_same k.no_equals key.no_equals,Key.ext_iff]

theorem after_equals_setting (key : Key) (token : List Char) :
    after_equals (setting key token) = _quote_env_value token := by
  have named : ∀ c ∈ key.name, (decide (c ≠ '=')) = true := fun c among => decide_eq_true (key.plain c among).1
  rw [after_equals,setting,List.dropWhile_append_of_pos named,List.dropWhile_cons_of_neg (by decide),List.tail_cons]

theorem breaks_space {c : Char} (visible : is_space c = false) : breaks c = false := by
  simp only [is_space,breaks] at visible ⊢
  grind

theorem mem_escape {c x : Char} (among : c ∈ escape x) : c = x ∨ c = '\\' := by
  rw [escape] at among
  grind

theorem setting_unbroken (key : Key) {token : List Char} (unbroken : Unbroken token) : Unbroken (setting key token) := by
  intro c among
  rw [setting,_quote_env_value,quoted_inner] at among
  rcases List.mem_append.mp among with named | among
  · exact breaks_space (key.plain c named).2
  · simp only [List.mem_cons,List.mem_append,List.mem_flatMap,List.not_mem_nil,or_false] at among
    rcases among with rfl | (rfl | ⟨x,here,among⟩) | rfl
    · decide
    · decide
    · rcases mem_escape among with rfl | rfl
      · exact unbroken c here
      · decide
    · decide

/-! The file. -/

def settings (key : Key) (token : Option (List Char)) : List (List Char) := (token.filter (· ≠ [])).toList.map (setting key)

theorem env_lines_unbroken (file : Option (List Char)) : ∀ line ∈ env_lines file, Unbroken line := by
  cases file with
  | none => exact fun line among => absurd among List.not_mem_nil
  | some raw => exact lines_unbroken _

/-- The lines of a file that was written: the other lines as they were, and the setting after them. -/
theorem env_lines_write (windows : Bool) (file : Option (List Char)) {token : Option (List Char)} (key : Key)
    (unbroken : ∀ t ∈ token, Unbroken t) :
    env_lines (some (write_env_token windows file token key)) =
      (env_lines file).filter (fun line => !sets key line) ++ settings key token := by
  have written : write_env_token windows file token key =
      write_text windows (joined ((env_lines file).filter (fun line => !sets key line) ++ settings key token)) := by
    rw [write_env_token,settings]
    cases token.filter (· ≠ []) with
    | none => rw [Option.toList_none,List.map_nil,List.append_nil]
    | some token => rfl
  rw [written]
  refine splitlines_written windows fun line among => ?_
  rcases List.mem_append.mp among with kept | new
  · exact env_lines_unbroken file line (List.mem_of_mem_filter kept)
  · obtain ⟨t,given,rfl⟩ := List.mem_map.mp new
    exact setting_unbroken key (unbroken t ((Option.mem_filter_iff.mp (Option.mem_toList.mp given)).1))

theorem read_setting (key : Key) {token : Option (List Char)} :
    ((settings key token).find? (sets key)).bind (fun line => (some (_unquote_env_value (after_equals line))).filter (· ≠ [])) =
      token.filter (· ≠ []) := by
  rw [settings]
  cases given : token.filter (· ≠ []) with
  | none => rfl
  | some t =>
    have here := (Option.filter_eq_some_iff.mp given).2
    rw [Option.toList_some,List.map_singleton,List.find?_cons_of_pos ((sets_setting key key t).mpr rfl),Option.bind_some,
      after_equals_setting,unquote_quote]
    exact if_pos here

theorem settings_other {k key : Key} (other : k ≠ key) (token : Option (List Char)) :
    ∀ line ∈ settings key token, ¬sets k line = true := by
  intro line among
  obtain ⟨t,_,rfl⟩ := List.mem_map.mp among
  rw [sets_setting]
  exact other

/-- No line sets two keys. -/
theorem sets_one {k key : Key} {line : List Char} (sets_k : sets k line = true) (sets_key : sets key line = true) : k = key := by
  rw [sets,List.isPrefixOf_iff_prefix] at sets_k sets_key
  obtain ⟨rest,same⟩ := sets_k
  rw [← same,List.append_assoc,List.singleton_append,prefix_same key.no_equals k.no_equals] at sets_key
  exact Key.ext_iff.mpr sets_key.symm

theorem read_write_same (windows : Bool) (file : Option (List Char)) {token : Option (List Char)} (key : Key)
    (unbroken : ∀ t ∈ token, Unbroken t) :
    read_env_token (some (write_env_token windows file token key)) key = token.filter (· ≠ []) := by
  rw [read_env_token,env_lines_write windows file key unbroken,List.find?_append]
  have gone : ((env_lines file).filter fun line => !sets key line).find? (sets key) = none := by
    rw [List.find?_eq_none]
    intro line among
    simpa using List.of_mem_filter among
  rw [gone,Option.none_or,read_setting]

theorem read_write_other (windows : Bool) (file : Option (List Char)) {token : Option (List Char)} {k key : Key}
    (other : k ≠ key) (unbroken : ∀ t ∈ token, Unbroken t) :
    read_env_token (some (write_env_token windows file token key)) k = read_env_token file k := by
  have found : ((env_lines file).filter fun line => !sets key line).find? (sets k) = (env_lines file).find? (sets k) := by
    rw [List.find?_filter]
    congr 1
    funext line
    cases sets_k : sets k line with
    | false => simp
    | true =>
      have kept : sets key line = false := Bool.eq_false_iff.mpr fun sets_key => other (sets_one sets_k sets_key)
      simp [kept]
  have not_new : (settings key token).find? (sets k) = none := List.find?_eq_none.mpr (settings_other other token)
  rw [read_env_token,env_lines_write windows file key unbroken,List.find?_append,found,not_new,Option.or_none]
  rfl

/-- Read after write, and nothing else moved. -/
theorem read_write (windows : Bool) (file : Option (List Char)) {token : Option (List Char)} (key : Key)
    (unbroken : ∀ t ∈ token, Unbroken t) :
    read_env_token (some (write_env_token windows file token key)) =
      Function.update (read_env_token file) key (token.filter (· ≠ [])) := by
  funext k
  by_cases same : k = key
  · subst same
    rw [Function.update_self,read_write_same windows file k unbroken]
  · rw [Function.update_of_ne same,read_write_other windows file same unbroken]

theorem replace_pair_keeps {a b new : Char} {P : Char → Prop} (fresh : P new) {text : List Char} (all : ∀ c ∈ text, P c) :
    ∀ c ∈ replace_pair a b new text, P c := by
  fun_induction replace_pair a b new text with
  | case1 x y rest both ih =>
    obtain ⟨_,more⟩ := List.forall_mem_cons.mp all
    exact List.forall_mem_cons.mpr ⟨fresh,ih (List.forall_mem_cons.mp more).2⟩
  | case2 x y rest apart ih =>
    obtain ⟨here,more⟩ := List.forall_mem_cons.mp all
    exact List.forall_mem_cons.mpr ⟨here,ih more⟩
  | case3 short => exact all

theorem strip_subset (text : List Char) : ∀ c ∈ strip text, c ∈ text := by
  intro c among
  rw [strip,rstrip,List.mem_reverse] at among
  exact (List.dropWhile_subset _) (List.mem_reverse.mp ((List.dropWhile_subset _) among))

theorem unquote_unbroken {value : List Char} (unbroken : Unbroken value) : Unbroken (_unquote_env_value value) := by
  have stripped : Unbroken (strip value) := fun c among => unbroken c (strip_subset value c among)
  simp only [_unquote_env_value]
  split
  · refine replace_pair_keeps (by decide) (replace_pair_keeps (by decide) fun c among => ?_)
    exact stripped c (List.mem_of_mem_tail ((List.dropLast_subset _) among))
  · exact stripped

theorem read_unbroken (file : Option (List Char)) (key : Key) {token : List Char}
    (found : read_env_token file key = some token) : Unbroken token := by
  obtain ⟨line,first,value⟩ := Option.bind_eq_some_iff.mp found
  obtain rfl := Option.some.inj (Option.filter_eq_some_iff.mp value).1
  have whole := env_lines_unbroken file line (List.mem_of_find?_eq_some first)
  exact unquote_unbroken fun c among => whole c ((List.dropWhile_subset _) (List.mem_of_mem_tail among))

/-! A run of writes. -/

structure Write where
  key : Key
  token : Option (List Char)

def Write.store (w : Write) (settings : Key → Option (List Char)) : Key → Option (List Char) :=
  Function.update settings w.key (w.token.filter (· ≠ []))

def written (windows : Bool) (file : Option (List Char)) (w : Write) : Option (List Char) :=
  some (write_env_token windows file w.token w.key)

def foreign (ws : List Write) (line : List Char) : Bool := ws.all fun w => !sets w.key line

/-- After any run of writes each key reads as in a map that took the same writes, and every line that is
none of theirs is still there, in its place. -/
theorem env_file_is_map (windows : Bool) (file : Option (List Char)) (ws : List Write)
    (unbroken : ∀ w ∈ ws, ∀ t ∈ w.token, Unbroken t) :
    read_env_token (ws.foldl (written windows) file) = ws.foldl (fun settings w => w.store settings) (read_env_token file) ∧
      (env_lines (ws.foldl (written windows) file)).filter (foreign ws) = (env_lines file).filter (foreign ws) := by
  induction ws generalizing file with
  | nil => exact ⟨rfl,rfl⟩
  | cons w ws ih =>
    obtain ⟨now,later⟩ := List.forall_mem_cons.mp unbroken
    obtain ⟨reads,lines⟩ := ih (written windows file w) later
    refine ⟨?_,?_⟩
    · rw [List.foldl_cons,reads,written,read_write windows file w.key now]
      rfl
    · have splits (ls : List (List Char)) :
          ls.filter (foreign (w::ws)) = (ls.filter (foreign ws)).filter fun line => !sets w.key line := by
        rw [List.filter_filter]
        rfl
      have others : (env_lines (written windows file w)).filter (fun line => !sets w.key line) =
          (env_lines file).filter fun line => !sets w.key line := by
        have own : (settings w.key w.token).filter (fun line => !sets w.key line) = [] := by
          rw [List.filter_eq_nil_iff]
          intro line among
          obtain ⟨t,_,rfl⟩ := List.mem_map.mp among
          simpa using (sets_setting w.key w.key t).mpr rfl
        rw [written,env_lines_write windows file w.key now,List.filter_append,own,List.append_nil,List.filter_filter]
        simp
      rw [List.foldl_cons,splits,lines,List.filter_comm,others,List.filter_comm,← splits]

theorem env_file_is_map_two : read_env_token ([⟨AV_API_TOKEN,some ['"','\\']⟩,⟨AV_AUTH_USERS,none⟩].foldl (written true) none)
    AV_API_TOKEN = some ['"','\\'] := by
  rw [(env_file_is_map true none [⟨AV_API_TOKEN,some ['"','\\']⟩,⟨AV_AUTH_USERS,none⟩] (by simp [Unbroken,breaks])).1]
  rfl

/-- A token is read back exactly when no line of the file could end inside it. -/
theorem token_survives_iff (windows : Bool) (file : Option (List Char)) {token : List Char} (some_token : token ≠ []) (key : Key) :
    read_env_token (some (write_env_token windows file (some token) key)) key = some token ↔ Unbroken token := by
  constructor
  · exact read_unbroken _ key
  · intro unbroken
    rw [read_write_same windows file key fun t given => Option.mem_some_iff.mp given ▸ unbroken]
    simp [some_token]

theorem token_survives_quote :
    read_env_token (some (write_env_token false none (some ['"']) AV_API_TOKEN)) AV_API_TOKEN = some ['"'] :=
  (token_survives_iff false none (by simp) AV_API_TOKEN).mpr (by simp [Unbroken,breaks])

end AetherVault.EnvFile
