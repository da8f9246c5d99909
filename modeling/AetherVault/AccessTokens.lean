import AetherVault.CommitRows
import AetherVault.EnvFile
import AetherVault.Identity
import AetherVault.Lib.Datetime
import AetherVault.Lib.JsonRoundTrip

/-! The commands on access tokens (`cmd_auth`), which keep them in the `.env` file. -/
namespace AetherVault.AccessTokens

open Lib Lib.TextLines Lib.JsonReader EnvFile

/-! `.env` and the commands that write it. -/

abbrev Users := Dict String JsonValue

inductive Refused
  | invalid_json
  | not_an_object
  deriving DecidableEq

def _read_auth_users (env : Option (List Char)) : Except Refused Users :=
  match read_env_token env AV_AUTH_USERS with
  | none => .ok ∅
  | some raw => match JsonValue.loads raw with
    | none => .error .invalid_json
    | some (.dict members) => .ok (Dict.ofList members)
    | some _ => .error .not_an_object

def _user_expiry : JsonValue → Option JsonValue
  | .dict members => (Dict.ofList members).get? "expires_at"
  | _ => none

def _write_auth_users (windows : Bool) (env : Option (List Char)) (users : Users) : List Char :=
  write_env_token windows env
    (if users.entries.isEmpty then none else some (JsonValue.dumps spaced false (.dict users.entries))) AV_AUTH_USERS

/-- `.env`, and the token in the repository's own settings. -/
structure Files where
  env : Option (List Char)
  remote_api_token : Option String

inductive Command
  | set_token (token : Option String)
  | clear
  | rotate (user : Option String)
  | add_user (name : String) (token : Option String) (expires_in_days : Option Int) (scopes : List String)
  | remove_user (name : String)

/-- A command, the token that `secrets.token_urlsafe` has for it, and when it is given. -/
structure Call where
  command : Command
  generated : String
  now : Datetime

/-- `token or secrets.token_urlsafe(32)` -/
def Call.token_or (call : Call) (token : Option String) : String := (token.filter (· ≠ "")).getD call.generated

/-- A bare token when there is nothing else to say of it. -/
def user_value (token : String) (expires_at : Option String) (scope_list : List String) : JsonValue :=
  if expires_at.isSome || !scope_list.isEmpty then
    .dict (set_when (set_when (Dict.ofList [("token",.string token)]) "expires_at" (expires_at.map .string)) "scopes"
      (if scope_list.isEmpty then none else some (.list (scope_list.map .string)))).entries
  else .string token

/-- `none` for a command that writes nothing: the user is there already, or the expiry is beyond the last year. -/
def auth_add_user (call : Call) (name : String) (token : Option String) (expires_in_days : Option Int) (scopes : List String)
    (users : Users) : Option Users :=
  if users.contains name then none
  else
    let value := fun expires_at => user_value (call.token_or token) expires_at (Identity.sorted_set scopes)
    match expires_in_days with
    | none => some (users.set name (value none))
    | some days => (call.now.minus_days (-days)).map fun until_ =>
        users.set name (value (some (String.ofList until_.isoformat_utc)))

def auth_rotate (call : Call) (username : String) (users : Users) : Option Users :=
  (users.get? username).map fun value => users.set username (match (_user_expiry value).filter truthy with
    | some existing_expiry => .dict [("token",.string call.generated),("expires_at",existing_expiry)]
    | none => .string call.generated)

def auth_remove_user (name : String) (users : Users) : Option Users :=
  if users.contains name then some (users.erase name) else none

/-- What a command is about: the owner's token, or the map of users. -/
inductive Effect
  | token (token : Option String)
  | users (edit : Users → Option Users)

def Call.effect (call : Call) : Effect :=
  match call.command with
  | .set_token token => .token (some (call.token_or token))
  | .clear => .token none
  | .rotate user => match user.filter (· ≠ "") with
    | none => .token (some call.generated)
    | some username => .users (auth_rotate call username)
  | .add_user name token expires_in_days scopes => .users (auth_add_user call name token expires_in_days scopes)
  | .remove_user name => .users (auth_remove_user name)

def _generate_and_apply_token (windows : Bool) (files : Files) (token : Option String) : Files where
  env := some (write_env_token windows files.env (token.map String.toList) AV_API_TOKEN)
  remote_api_token := token

def edit_users (windows : Bool) (files : Files) (edit : Users → Option Users) : Files :=
  match _read_auth_users files.env with
  | .error _ => files
  | .ok users => match edit users with
    | none => files
    | some edited => {files with env := some (_write_auth_users windows files.env edited)}

def execute (windows : Bool) (files : Files) (call : Call) : Files :=
  match call.effect with
  | .token token => _generate_and_apply_token windows files token
  | .users edit => edit_users windows files edit

/-! The text of a JSON value is one line. -/

theorem escaped_toNat (c : Char) : JsonReader.escaped c.toNat = JsonValue.escaped c := by
  have plain : c.toNat < 0xd800 ∨ 0xe000 ≤ c.toNat := c.valid.imp_right fun above => Nat.succ_le_of_lt above.1
  rw [JsonReader.escaped,if_pos plain,Char.ofNat_toNat]

theorem char_below (c : Char) : c.toNat < 0x110000 := by
  have scalar := c.valid
  simp only [UInt32.isValidChar,Nat.isValidChar] at scalar
  have same : c.val.toNat = c.toNat := rfl
  omega

theorem string_printable (s : String) : ∀ c ∈ JsonValue.quoted s, printable c = true := by
  intro c among
  rcases List.mem_append.mp among with among | last
  · rcases List.mem_cons.mp among with rfl | among
    · decide
    · obtain ⟨x,_,written⟩ := List.mem_flatMap.mp among
      rw [← escaped_toNat] at written
      exact escaped_printable (char_below x) c written
  · rw [List.mem_singleton.mp last]
    decide

theorem numeral_printable {c : Char} (part : numeral_char c = true) : printable c = true := by
  simp only [numeral_char,numeral_start,Bool.or_eq_true,decide_eq_true_eq,beq_iff_eq,List.mem_cons,List.not_mem_nil,
    or_false] at part
  rcases part with (⟨low,high⟩ | rfl) | rfl | rfl | rfl | rfl
  · simp only [printable,Bool.and_eq_true,decide_eq_true_eq]
    exact ⟨le_trans (by decide) low,le_trans high (by decide)⟩
  all_goals decide

theorem enclosed_printable {opening closing : Char} (opens : printable opening = true) (closes : printable closing = true)
    {inside : List Char} (all : ∀ c ∈ inside, printable c = true) : ∀ c ∈ opening::inside ++ [closing], printable c = true := by
  rw [List.forall_mem_append,List.forall_mem_cons,List.forall_mem_singleton]
  exact ⟨⟨opens,all⟩,closes⟩

/-- What blanks a style writes is printable. -/
def Shown (style : JsonValue.Style) : Prop := ∀ c ∈ style.blanks, printable c = true

mutual

theorem text_printable {style : JsonValue.Style} (shown : Shown style) :
    ∀ value : JsonValue, ∀ c ∈ JsonValue.text style value, printable c = true
  | .null => List.all_eq_true.mp rfl
  | .boolean true => List.all_eq_true.mp rfl
  | .boolean false => List.all_eq_true.mp rfl
  | .number n => by
    have first : numeral_char n.first = true := by
      rw [numeral_char,n.starts]
      rfl
    refine List.forall_mem_cons.mpr ⟨numeral_printable first,fun c among => ?_⟩
    exact numeral_printable (List.all_eq_true.mp n.shape c among)
  | .string s => string_printable s
  | .list items => enclosed_printable (by decide) (by decide) (joined_printable shown (texts_printable shown items))
  | .dict members => enclosed_printable (by decide) (by decide) (joined_printable shown (members_printable shown members))

theorem texts_printable {style : JsonValue.Style} (shown : Shown style) :
    ∀ items : List JsonValue, ∀ text ∈ JsonValue.texts style items, ∀ c ∈ text, printable c = true
  | [] => fun _ among => absurd among List.not_mem_nil
  | value::rest => List.forall_mem_cons.mpr ⟨text_printable shown value,texts_printable shown rest⟩

theorem members_printable {style : JsonValue.Style} (shown : Shown style) : ∀ members : List (String × JsonValue),
    ∀ text ∈ JsonValue.member_texts style members, ∀ c ∈ text, printable c = true
  | [] => fun _ among => absurd among List.not_mem_nil
  | (name,value)::rest => by
    refine List.forall_mem_cons.mpr ⟨?_,members_printable shown rest⟩
    rw [List.forall_mem_append,List.forall_mem_append,List.forall_mem_cons]
    exact ⟨⟨string_printable name,by decide,shown⟩,text_printable shown value⟩

end

theorem printable_unbroken {c : Char} (shown : printable c = true) : breaks c = false := by
  simp only [printable,Bool.and_eq_true,decide_eq_true_eq] at shown
  have low : 32 ≤ c.toNat := shown.1
  have high : c.toNat ≤ 126 := shown.2
  simp only [breaks]
  grind

theorem spaced_unbroken (value : JsonValue) : Unbroken (JsonValue.text spaced value) := fun c among =>
  printable_unbroken (text_printable (List.all_eq_true.mp (by decide)) value c among)

/-- What `_write_auth_users` hands on. -/
def users_line (users : Users) : Option (List Char) :=
  if users.entries.isEmpty then none else some (JsonValue.dumps spaced false (.dict users.entries))

theorem users_line_unbroken (users : Users) : ∀ t ∈ users_line users, Unbroken t := by
  intro t given
  rw [users_line] at given
  split at given
  · exact absurd given (Option.not_mem_none t)
  · rw [← Option.mem_some_iff.mp given]
    exact spaced_unbroken _

theorem users_line_read (users : Users) : (users_line users).filter (· ≠ []) = users_line users := by
  rw [users_line]
  split
  · rfl
  · rfl

theorem read_users_written (windows : Bool) (env : Option (List Char)) (users : Users) :
    _read_auth_users (some (_write_auth_users windows env users)) = .ok users := by
  have line : read_env_token (some (_write_auth_users windows env users)) AV_AUTH_USERS = users_line users :=
    (read_write_same windows env AV_AUTH_USERS (users_line_unbroken users)).trans (users_line_read users)
  rw [_read_auth_users,line,users_line]
  cases none_left : users.entries with
  | nil =>
    have nobody : users = ∅ := Dict.ext none_left
    rw [nobody]
    rfl
  | cons user rest =>
    have whole : JsonValue.dumps spaced false (.dict (user::rest)) = JsonValue.text spaced (.dict users.entries) := by
      rw [none_left]
      rfl
    simp only [List.isEmpty_cons,Bool.false_eq_true,↓reduceIte,whole,JsonValue.loads_text,Dict.ofList_entries]

theorem read_other_written (windows : Bool) (env : Option (List Char)) (users : Users) {key : Key} (other : key ≠ AV_AUTH_USERS) :
    read_env_token (some (_write_auth_users windows env users)) key = read_env_token env key :=
  read_write_other windows env other (users_line_unbroken users)

/-! What the file stands for. -/

structure Accounts where
  api_token : Option (List Char)
  users : Except Refused Users

def Files.accounts (files : Files) : Accounts := ⟨read_env_token files.env AV_API_TOKEN,_read_auth_users files.env⟩

def Accounts.apply (accounts : Accounts) (call : Call) : Accounts :=
  match call.effect with
  | .token token => {accounts with api_token := token.map String.toList}
  | .users edit => {accounts with users := accounts.users.map fun users => (edit users).getD users}

/-- No line ends inside the owner's token, which is not empty. -/
def Call.Plain (call : Call) : Prop := ∀ token, call.effect = .token (some token) → token ≠ "" ∧ Unbroken token.toList

theorem keys_apart : AV_AUTH_USERS ≠ AV_API_TOKEN := by decide

theorem read_users_congr {env env' : Option (List Char)}
    (same : read_env_token env' AV_AUTH_USERS = read_env_token env AV_AUTH_USERS) : _read_auth_users env' = _read_auth_users env := by
  rw [_read_auth_users,same,_read_auth_users]

theorem accounts_token (windows : Bool) (files : Files) {token : Option String}
    (plain : ∀ t ∈ token, t ≠ "" ∧ Unbroken t.toList) :
    (_generate_and_apply_token windows files token).accounts = {files.accounts with api_token := token.map String.toList} := by
  have unbroken : ∀ t ∈ token.map String.toList, Unbroken t := by
    intro t given
    obtain ⟨s,among,rfl⟩ := Option.mem_map.mp given
    exact (plain s among).2
  have some_token : (token.map String.toList).filter (· ≠ []) = token.map String.toList := by
    cases token with
    | none => rfl
    | some t => exact if_pos (decide_eq_true (String.toList_eq_nil_iff.not.mpr (plain t rfl).1))
  have token_read := read_write_same windows files.env AV_API_TOKEN unbroken
  rw [some_token] at token_read
  have users_read := read_users_congr (read_write_other windows files.env keys_apart unbroken)
  rw [Files.accounts,_generate_and_apply_token,token_read,users_read]
  rfl

theorem edit_users_eq (windows : Bool) (files : Files) (edit : Users → Option Users) :
    edit_users windows files edit = files ∨
      ∃ users, edit_users windows files edit = {files with env := some (_write_auth_users windows files.env users)} := by
  rw [edit_users]
  cases _read_auth_users files.env with
  | error refused => exact .inl rfl
  | ok users =>
    dsimp only
    cases edit users with
    | none => exact .inl rfl
    | some edited => exact .inr ⟨edited,rfl⟩

theorem execute_other (windows : Bool) (files : Files) {call : Call} (plain : call.Plain) {key : Key}
    (no_token : key ≠ AV_API_TOKEN) (no_users : key ≠ AV_AUTH_USERS) :
    read_env_token (execute windows files call).env key = read_env_token files.env key := by
  rw [execute]
  cases about : call.effect with
  | token token =>
    refine read_write_other windows files.env no_token fun t given => ?_
    obtain ⟨s,among,rfl⟩ := Option.mem_map.mp given
    exact (plain s (about.trans (congrArg _ (Option.mem_def.mp among)))).2
  | users edit =>
    rcases edit_users_eq windows files edit with same | ⟨users,wrote⟩
    · exact congrArg (fun files => read_env_token files.env key) same
    · exact (congrArg (fun files => read_env_token files.env key) wrote).trans (read_other_written windows files.env users no_users)

theorem accounts_users (windows : Bool) (files : Files) (edit : Users → Option Users) :
    (edit_users windows files edit).accounts =
      {files.accounts with users := files.accounts.users.map fun users => (edit users).getD users} := by
  cases read : _read_auth_users files.env with
  | error refused =>
    have kept : edit_users windows files edit = files := by rw [edit_users,read]
    rw [kept,Files.accounts,read]
    rfl
  | ok users =>
    cases edited : edit users with
    | none =>
      have kept : edit_users windows files edit = files := by simp only [edit_users,read,edited]
      rw [kept,Files.accounts,read,Except.map,edited]
      rfl
    | some users' =>
      have wrote : edit_users windows files edit = {files with env := some (_write_auth_users windows files.env users')} := by
        simp only [edit_users,read,edited]
      rw [wrote,Files.accounts,Files.accounts,read,Except.map,edited,read_users_written,
        read_other_written windows files.env users' keys_apart.symm]
      rfl

/-- What the commands leave in the files is what they make of the accounts. -/
theorem accounts_execute (windows : Bool) (files : Files) {call : Call} (plain : call.Plain) :
    (execute windows files call).accounts = files.accounts.apply call := by
  rw [execute,Accounts.apply]
  cases about : call.effect with
  | token token => exact accounts_token windows files fun t given => plain t (about.trans (congrArg _ (Option.mem_def.mp given)))
  | users edit => exact accounts_users windows files edit

theorem accounts_run (windows : Bool) (files : Files) (run : List Call) (plain : ∀ call ∈ run, call.Plain) :
    (run.foldl (execute windows) files).accounts = run.foldl Accounts.apply files.accounts := by
  induction run generalizing files with
  | nil => rfl
  | cons call run ih =>
    obtain ⟨now,later⟩ := List.forall_mem_cons.mp plain
    rw [List.foldl_cons,List.foldl_cons,ih (execute windows files call) later,accounts_execute windows files now]

theorem other_run (windows : Bool) (files : Files) (run : List Call) (plain : ∀ call ∈ run, call.Plain) {key : Key}
    (no_token : key ≠ AV_API_TOKEN) (no_users : key ≠ AV_AUTH_USERS) :
    read_env_token (run.foldl (execute windows) files).env key = read_env_token files.env key := by
  induction run generalizing files with
  | nil => rfl
  | cons call run ih =>
    obtain ⟨now,later⟩ := List.forall_mem_cons.mp plain
    rw [List.foldl_cons,ih (execute windows files call) later,execute_other windows files now no_token no_users]

def first_of_may : Datetime := ⟨2026,5,1,12,0,0,0,rfl⟩

/-- One user, with one scope, for a day. -/
def ada : Call := ⟨.add_user "ada" (some "t") (some 1) ["eval:write"],"g",first_of_may⟩

theorem ada_plain : ∀ call ∈ [ada], call.Plain := by
  intro call among token about
  rw [List.mem_singleton.mp among] at about
  contradiction

def no_files : Files := ⟨none,none⟩

end AetherVault.AccessTokens
