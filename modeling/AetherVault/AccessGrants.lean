import AetherVault.AccessTokens
import AetherVault.EnvReplay

/-! Whom the server lets in after a run of the commands on access tokens: it reads the settings that they wrote
when it starts. -/
namespace AetherVault.AccessTokens

open Lib EnvFile

/-! What the server makes of the two settings when it starts. -/

/-- `str.strip` -/
def trim (s : String) : String := String.ofList (PyString.strip s.toList)

structure Entry where
  token : String
  expires_at : Option String
  scopes : Option (List String)

section

-- `str` of a value that is neither a string nor null.
variable (str : JsonValue → String)

def auth_entry : JsonValue → Entry
  | .dict members =>
    let val := Dict.ofList members
    { token := trim (((val.get? "token").map (EnvReplay.text_of str)).getD "")
      expires_at := ((val.get? "expires_at").filter truthy).map fun value => trim (EnvReplay.text_of str value)
      scopes := match val.get? "scopes" with
        | some (.list scopes_raw) => if scopes_raw.isEmpty then none
          else some (Identity.sorted_set ((scopes_raw.map fun s => trim (EnvReplay.text_of str s)).filter (· ≠ "")))
        | _ => none }
  | val => ⟨trim (EnvReplay.text_of str val),none,none⟩

/-- `none` for a `RuntimeError`. -/
def parse_entries : Dict String Entry → List (String × JsonValue) → Option (Dict String Entry)
  | users,[] => some users
  | users,(name,val)::rest =>
    let entry := auth_entry str val
    if trim name = "" ∨ entry.token = "" then none else parse_entries (users.set (trim name) entry) rest

def _parse_auth_users (raw : Option (List Char)) : Option (Dict String Entry) :=
  match raw.filter fun text => PyString.strip text ≠ [] with
  | none => some ∅
  | some text => match JsonValue.loads text with
    | some (.dict members) => parse_entries str ∅ (Dict.ofList members).entries
    | _ => none

structure Server where
  AV_API_TOKEN : String
  _AUTH_USERS : Dict String Entry

/-- The server that starts with what the file sets. -/
def Server.start (env : Option (List Char)) : Option Server :=
  (_parse_auth_users str (read_env_token env EnvFile.AV_AUTH_USERS)).map fun users =>
    ⟨trim (String.ofList ((read_env_token env EnvFile.AV_API_TOKEN).getD [])),users⟩

end

/-- A comparison of texts; a `TypeError` when one of them is not ASCII. -/
def compare_digest (a b : String) : Option Bool :=
  if (a.toList ++ b.toList).all fun c => decide (c.toNat < 128) then some (a = b) else none

section

-- `none` for the error on a text that is no time.
variable (_parse_iso_dt : String → Option Datetime) (now : Datetime)

def _is_expired (expires_at : Option String) : Bool :=
  match (expires_at.filter (· ≠ "")).bind _parse_iso_dt with
  | none => false
  | some expiry => expiry.instant < now.instant

def first_match (supplied_token : String) : List (String × Entry) → Option (Option String)
  | [] => some none
  | (name,entry)::rest => do
    if ← compare_digest supplied_token entry.token then
      return if _is_expired _parse_iso_dt now entry.expires_at then none else some name
    first_match supplied_token rest

/-- The identity of a bearer token, if it has one. -/
def Server._resolve_identity (server : Server) (supplied_token : String) : Option (Option String) := do
  if server.AV_API_TOKEN ≠ "" then
    if ← compare_digest supplied_token server.AV_API_TOKEN then
      return some "owner"
  first_match _parse_iso_dt now supplied_token server._AUTH_USERS.entries

end

def Server._scopes_for_identity (server : Server) (username : String) : List String :=
  if username = "owner" then ["*"]
  else match ((some username).filter (· ≠ "")).bind fun name => (server._AUTH_USERS.get? name).bind Entry.scopes with
    | some (scope::scopes) => scope::scopes
    | _ => ["*"]

/-! The accounts behind the map of users. -/

structure Account where
  token : String
  expires_at : Option Datetime
  scopes : List String

def iso (d : Datetime) : String := String.ofList d.isoformat_utc

def Account.value (a : Account) : JsonValue := user_value a.token (a.expires_at.map iso) a.scopes

abbrev Known := Dict String Account

def users_of (known : Known) : Users := known.map fun _ account => account.value

/-- A rotation keeps the expiry, and not the scopes. -/
def settle (known : Known) (call : Call) : Known :=
  match call.command with
  | .add_user name token expires_in_days scopes =>
    if known.contains name then known
    else
      let account := fun expires_at => Account.mk (call.token_or token) expires_at (Identity.sorted_set scopes)
      match expires_in_days with
      | none => known.set name (account none)
      | some days => ((call.now.minus_days (-days)).map fun until_ => known.set name (account (some until_))).getD known
  | .rotate user => ((user.filter (· ≠ "")).bind fun username => (known.get? username).map fun account =>
      known.set username ⟨call.generated,account.expires_at,[]⟩).getD known
  | .remove_user name => known.erase name
  | _ => known

theorem iso_visible (d : Datetime) : (∀ c ∈ d.isoformat_utc.head?, PyString.is_space c = false) ∧
    ∀ c ∈ d.isoformat_utc.getLast?, PyString.is_space c = false := by
  have digit : ∀ n < 10, PyString.is_space n.digitChar = false := by decide
  constructor
  · intro c first
    have head : d.isoformat_utc.head? = some (d.year / 10^3 % 10).digitChar := rfl
    rw [head] at first
    rw [← Option.mem_some_iff.mp first]
    exact digit _ (Nat.mod_lt _ (by decide))
  · intro c last
    have tail : d.isoformat_utc.getLast? = some '0' := by
      rw [Datetime.isoformat_utc,List.getLast?_append]
      rfl
    rw [tail] at last
    rw [← Option.mem_some_iff.mp last]
    rfl

theorem trim_iso (d : Datetime) : trim (iso d) = iso d := by
  rw [trim,iso,String.toList_ofList,strip_visible (iso_visible d).1 (iso_visible d).2]

theorem iso_nonempty (d : Datetime) : iso d ≠ "" := by
  intro empty
  have none_left := congrArg String.toList empty
  rw [iso,String.toList_ofList] at none_left
  exact List.cons_ne_nil _ _ none_left

theorem truthy_iso (d : Datetime) : truthy (.string (iso d)) = true := bne_iff_ne.mpr (iso_nonempty d)

/-- What a member of the map has to say beside the token. -/
theorem user_value_members (token : String) (expires_at : Option String) (scope_list : List String)
    (more : ¬(expires_at = none ∧ scope_list = [])) : ∃ members : Dict String JsonValue,
      user_value token expires_at scope_list = .dict members.entries ∧ members.get? "token" = some (.string token) ∧
        members.get? "expires_at" = expires_at.map .string ∧
        members.get? "scopes" = if scope_list = [] then none else some (.list (scope_list.map .string)) := by
  refine ⟨_,if_pos ?_,?_⟩
  · cases expires_at with
    | none => simpa using more
    | some until_ => rfl
  · cases expires_at with
    | none =>
      cases scope_list with
      | nil => exact absurd ⟨rfl,rfl⟩ more
      | cons scope rest => simp [set_when,Dict.ofList,Dict.get?_set]
    | some until_ =>
      cases scope_list with
      | nil => simp [set_when,Dict.ofList,Dict.get?_set]
      | cons scope rest => simp [set_when,Dict.ofList,Dict.get?_set]

theorem user_expiry_value (token : String) (expires_at : Option String) (scope_list : List String) :
    _user_expiry (user_value token expires_at scope_list) = expires_at.map .string := by
  by_cases bare : expires_at = none ∧ scope_list = []
  · obtain ⟨rfl,rfl⟩ := bare
    rfl
  · obtain ⟨members,value,_,expiry,_⟩ := user_value_members token expires_at scope_list bare
    rw [value,_user_expiry,Dict.ofList_entries,expiry]

theorem user_value_expiring (token until_ : String) :
    user_value token (some until_) [] = .dict [("token",.string token),("expires_at",.string until_)] := by
  simp [user_value,set_when,Dict.ofList,Dict.set,Dict.assign]

/-! The map of users is that of the accounts. -/

theorem assign_map {α β : Type} (f : α → β) (xs : List (String × α)) (key : String) (value : α) :
    (Dict.assign xs key value).map (fun e => (e.1,f e.2)) = Dict.assign (xs.map fun e => (e.1,f e.2)) key (f value) := by
  induction xs with
  | nil => rfl
  | cons x rest ih =>
    obtain ⟨k,v⟩ := x
    rw [Dict.assign,List.map_cons,Dict.assign]
    split
    · rfl
    · rw [List.map_cons,ih]

theorem users_set (known : Known) (name : String) (account : Account) :
    users_of (known.set name account) = (users_of known).set name account.value :=
  Dict.ext (assign_map Account.value known.entries name account)

theorem users_erase (known : Known) (name : String) : users_of (known.erase name) = (users_of known).erase name := by
  apply Dict.ext
  simp only [users_of,Dict.erase,Dict.filter,Dict.map,List.filter_map]
  rfl

theorem users_get? (known : Known) (name : String) : (users_of known).get? name = (known.get? name).map Account.value :=
  Dict.get?_map known _ name

theorem users_contains (known : Known) (name : String) : (users_of known).contains name = known.contains name := by
  rw [Dict.contains,users_get?,Option.isSome_map]
  rfl

theorem erase_absent {known : Known} {name : String} (absent : known.contains name = false) : known.erase name = known := by
  apply Dict.ext
  rw [Dict.erase,Dict.filter]
  refine List.filter_eq_self.mpr fun e among => decide_eq_true fun same => ?_
  have held := (Dict.mem_entries known e.1 e.2).mp among
  rw [same] at held
  rw [Dict.contains,held] at absent
  exact Bool.noConfusion absent

theorem users_add (known : Known) (call : Call) (name : String) (token : Option String) (expires_in_days : Option Int)
    (scopes : List String) :
    (auth_add_user call name token expires_in_days scopes (users_of known)).getD (users_of known) =
      users_of (settle known {call with command := .add_user name token expires_in_days scopes}) := by
  simp only [auth_add_user,settle,users_contains]
  by_cases present : known.contains name = true
  · rw [if_pos present,if_pos present]
    rfl
  · rw [if_neg present,if_neg present]
    cases expires_in_days with
    | none => exact (users_set known name ⟨call.token_or token,none,Identity.sorted_set scopes⟩).symm
    | some days =>
      dsimp only
      cases call.now.minus_days (-days) with
      | none => rfl
      | some until_ => exact (users_set known name ⟨call.token_or token,some until_,Identity.sorted_set scopes⟩).symm

theorem users_rotate (known : Known) (call : Call) (username : String) :
    (auth_rotate call username (users_of known)).getD (users_of known) =
      users_of (((known.get? username).map fun account =>
        known.set username ⟨call.generated,account.expires_at,[]⟩).getD known) := by
  rw [auth_rotate,users_get?]
  cases known.get? username with
  | none => rfl
  | some account =>
    simp only [Option.map_some,Option.getD_some]
    rw [users_set,Account.value,user_expiry_value]
    cases expires : account.expires_at with
    | none => rfl
    | some until_ =>
      have kept : ((some (iso until_)).map JsonValue.string).filter truthy = some (.string (iso until_)) := if_pos (truthy_iso until_)
      simp only [Option.map_some] at kept
      simp only [Option.map_some,kept,Account.value,user_value_expiring]

theorem users_remove (known : Known) (name : String) :
    (auth_remove_user name (users_of known)).getD (users_of known) = users_of (known.erase name) := by
  rw [auth_remove_user,users_contains]
  cases found : known.contains name with
  | true => exact (users_erase known name).symm
  | false => rw [erase_absent found]; rfl

/-- One command on the map of users and on the accounts behind it. -/
theorem users_settle (known : Known) (call : Call) {edit : Users → Option Users} (about : call.effect = .users edit) :
    (edit (users_of known)).getD (users_of known) = users_of (settle known call) := by
  obtain ⟨command,generated,now⟩ := call
  cases command with
  | set_token token => contradiction
  | clear => contradiction
  | rotate user =>
    rw [Call.effect] at about
    cases named : user.filter (· ≠ "") with
    | none =>
      simp only [named] at about
      contradiction
    | some username =>
      simp only [named,Effect.users.injEq] at about
      simp only [settle,named,Option.bind_some,← about]
      exact users_rotate known ⟨_,generated,now⟩ username
  | add_user name token expires_in_days scopes =>
    obtain rfl := Effect.users.inj about
    exact users_add known ⟨_,generated,now⟩ name token expires_in_days scopes
  | remove_user name =>
    obtain rfl := Effect.users.inj about
    exact users_remove known name

theorem token_settle (known : Known) (call : Call) {token : Option String} (about : call.effect = .token token) :
    settle known call = known := by
  obtain ⟨command,generated,now⟩ := call
  cases command with
  | set_token token => rfl
  | clear => rfl
  | rotate user =>
    rw [Call.effect] at about
    cases named : user.filter (· ≠ "") with
    | none => simp only [settle,named,Option.bind_none,Option.getD_none]
    | some username =>
      simp only [named] at about
      contradiction
  | add_user name token expires_in_days scopes => contradiction
  | remove_user name => contradiction

/-- The map of users after a run is that of the accounts which took the same commands. -/
theorem users_run (run : List Call) (accounts : Accounts) (known : Known) (same : accounts.users = .ok (users_of known)) :
    (run.foldl Accounts.apply accounts).users = .ok (users_of (run.foldl settle known)) := by
  induction run generalizing accounts known with
  | nil => exact same
  | cons call run ih =>
    refine ih (accounts.apply call) (settle known call) ?_
    rw [Accounts.apply]
    cases about : call.effect with
    | token token => rw [token_settle known call about]; exact same
    | users edit =>
      rw [← users_settle known call about]
      simp only [same]
      rfl

/-! The server's map. -/

theorem numeral_visible {c : Char} (starts : numeral_start c = true) : PyString.is_space c = false := by
  rw [numeral_start,Bool.or_eq_true,decide_eq_true_eq,beq_iff_eq] at starts
  rcases starts with ⟨low,high⟩ | rfl
  · have low' : 48 ≤ c.toNat := low
    have high' : c.toNat ≤ 57 := high
    simp only [PyString.is_space]
    grind
  · rfl

theorem openings_visible : ['"','[','{','n','t','f'].all (fun c => !PyString.is_space c) = true := rfl

theorem read_value_visible {depth : Nat} {c : Char} {rest : List Char} {value : JsonValue × List Char}
    (read : JsonValue.read_value depth (c::rest) = some value) : PyString.is_space c = false := by
  cases depth with
  | zero => contradiction
  | succ depth =>
    rw [JsonValue.read_value] at read
    by_cases known : c ∈ ['"','[','{','n','t','f']
    · simpa using List.all_eq_true.mp openings_visible c known
    · simp only [List.mem_cons,List.not_mem_nil,or_false,not_or] at known
      obtain ⟨quote,list,dict,null,yes,no⟩ := known
      rw [if_neg quote,if_neg list,if_neg dict,if_neg null,if_neg yes,if_neg no,JsonValue.read_number] at read
      split at read
      · rename_i starts
        exact numeral_visible starts
      · contradiction

theorem mem_dropWhile {p : Char → Bool} {c : Char} {text : List Char} (among : c ∈ text) (apart : p c = false) : c ∈ text.dropWhile p := by
  rw [← List.takeWhile_append_dropWhile (p := p) (l := text)] at among
  rcases List.mem_append.mp among with taken | left
  · have held := List.all_eq_true.mp List.all_takeWhile c taken
    rw [apart] at held
    exact absurd held Bool.false_ne_true
  · exact left

theorem loads_visible {text : List Char} {value : JsonValue} (read : JsonValue.loads text = some value) : PyString.strip text ≠ [] := by
  obtain ⟨first,parsed,_⟩ := Option.bind_eq_some_iff.mp read
  cases shown : JsonValue.skip_space text with
  | nil =>
    rw [shown] at parsed
    contradiction
  | cons c rest =>
    rw [shown] at parsed
    have visible := read_value_visible parsed
    have among : c ∈ text := (List.dropWhile_subset _) (shown ▸ List.mem_cons_self : c ∈ JsonValue.skip_space text)
    have kept : c ∈ PyString.strip text :=
      List.mem_reverse.mpr (mem_dropWhile (List.mem_reverse.mpr (mem_dropWhile among visible)) visible)
    exact List.ne_nil_of_mem kept

section

variable (str : JsonValue → String)

theorem entry_value (a : Account) : auth_entry str a.value = ⟨trim a.token,a.expires_at.map iso,
    if a.scopes = [] then none else some (Identity.sorted_set ((a.scopes.map trim).filter (· ≠ "")))⟩ := by
  obtain ⟨token,expires_at,scopes⟩ := a
  by_cases bare : expires_at.map iso = none ∧ scopes = []
  · obtain ⟨never,rfl⟩ := bare
    obtain rfl := Option.map_eq_none_iff.mp never
    rfl
  · obtain ⟨members,value,named,expiry,listed⟩ := user_value_members token (expires_at.map iso) scopes bare
    rw [Account.value,value,auth_entry,Dict.ofList_entries,named,expiry,listed]
    congr 1
    · cases expires_at with
      | none => rfl
      | some until_ =>
        have kept : ((some (iso until_)).map JsonValue.string).filter truthy = some (.string (iso until_)) := if_pos (truthy_iso until_)
        rw [Option.map_some,kept]
        exact congrArg some (trim_iso until_)
    · cases scopes with
      | nil => rfl
      | cons scope rest =>
        simp only [List.cons_ne_nil,↓reduceIte,List.map_cons,List.isEmpty_cons,Bool.false_eq_true,List.map_map]
        rfl

/-- A name and a token that are not blank. -/
def Named (name : String) (account : Account) : Prop := trim name ≠ "" ∧ trim account.token ≠ ""

def entries_after (users : Dict String Entry) (items : List (String × Account)) : Dict String Entry :=
  (items.map fun item => (trim item.1,auth_entry str item.2.value)).foldl (fun users item => users.set item.1 item.2) users

theorem parse_entries_users (users : Dict String Entry) {items : List (String × Account)} (all : ∀ item ∈ items, Named item.1 item.2) :
    parse_entries str users (items.map fun item => (item.1,item.2.value)) = some (entries_after str users items) := by
  induction items generalizing users with
  | nil => rfl
  | cons item rest ih =>
    obtain ⟨⟨named,token⟩,later⟩ := List.forall_mem_cons.mp all
    rw [List.map_cons,parse_entries,entry_value]
    have both : ¬(trim item.1 = "" ∨ trim item.2.token = "") := not_or.mpr ⟨named,token⟩
    rw [if_neg both,ih _ later,← entry_value str item.2]
    rfl

theorem parse_entries_blank (users : Dict String Entry) {items : List (String × Account)} {item : String × Account}
    (among : item ∈ items) (blank : ¬Named item.1 item.2) :
    parse_entries str users (items.map fun item => (item.1,item.2.value)) = none := by
  induction items generalizing users with
  | nil => exact absurd among List.not_mem_nil
  | cons first rest ih =>
    rw [List.map_cons,parse_entries]
    split
    · rfl
    · rename_i shown
      rcases List.mem_cons.mp among with rfl | later
      · rw [entry_value] at shown
        exact absurd (not_or.mp shown) blank
      · exact ih _ later

theorem parse_auth_users_eq {env : Option (List Char)} {known : Known} (read : _read_auth_users env = .ok (users_of known)) :
    _parse_auth_users str (read_env_token env EnvFile.AV_AUTH_USERS) = parse_entries str ∅ (users_of known).entries := by
  rw [_read_auth_users] at read
  rw [_parse_auth_users]
  cases line : read_env_token env EnvFile.AV_AUTH_USERS with
  | none =>
    simp only [line,Except.ok.injEq] at read
    rw [← read]
    rfl
  | some text =>
    simp only [line] at read
    cases loaded : JsonValue.loads text with
    | none =>
      simp only [loaded] at read
      contradiction
    | some value =>
      have kept : (some text).filter (fun text => PyString.strip text ≠ []) = some text := if_pos (decide_eq_true (loads_visible loaded))
      simp only [kept,loaded]
      cases value with
      | dict members =>
        simp only [loaded,Except.ok.injEq] at read
        exact congrArg (fun users : Users => parse_entries str ∅ users.entries) read
      | _ =>
        simp only [loaded] at read
        contradiction

theorem start_eq {env : Option (List Char)} {known : Known} (read : _read_auth_users env = .ok (users_of known)) :
    Server.start str env = (parse_entries str ∅ (users_of known).entries).map fun users =>
      ⟨trim (String.ofList ((read_env_token env EnvFile.AV_API_TOKEN).getD [])),users⟩ := by
  rw [Server.start,parse_auth_users_eq str read]

theorem start_named {env : Option (List Char)} {known : Known} (read : _read_auth_users env = .ok (users_of known))
    (named : ∀ item ∈ known.entries, Named item.1 item.2) : Server.start str env =
      some ⟨trim (String.ofList ((read_env_token env EnvFile.AV_API_TOKEN).getD [])),entries_after str ∅ known.entries⟩ := by
  have parsed : parse_entries str ∅ (users_of known).entries = some (entries_after str ∅ known.entries) :=
    parse_entries_users str ∅ named
  rw [start_eq str read,parsed]
  rfl

theorem start_blank {env : Option (List Char)} {known : Known} (read : _read_auth_users env = .ok (users_of known))
    {item : String × Account} (among : item ∈ known.entries) (blank : ¬Named item.1 item.2) : Server.start str env = none := by
  have refused : parse_entries str ∅ (users_of known).entries = none := parse_entries_blank str ∅ among blank
  rw [start_eq str read,refused]
  rfl

theorem users_after (windows : Bool) {files : Files} (nobody : _read_auth_users files.env = .ok ∅) {run : List Call}
    (plain : ∀ call ∈ run, call.Plain) :
    _read_auth_users (run.foldl (execute windows) files).env = .ok (users_of (run.foldl settle ∅)) := by
  have accounts := congrArg Accounts.users (accounts_run windows files run plain)
  exact accounts.trans (users_run run files.accounts ∅ nobody)

theorem started_named (windows : Bool) {files : Files} (nobody : _read_auth_users files.env = .ok ∅) {run : List Call}
    (plain : ∀ call ∈ run, call.Plain) {server : Server}
    (started : Server.start str (run.foldl (execute windows) files).env = some server) :
    ∀ item ∈ (run.foldl settle ∅).entries, Named item.1 item.2 := by
  intro item among
  by_contra blank
  rw [start_blank str (users_after windows nobody plain) among blank] at started
  contradiction

theorem started_users (windows : Bool) {files : Files} (nobody : _read_auth_users files.env = .ok ∅) {run : List Call}
    (plain : ∀ call ∈ run, call.Plain) {server : Server}
    (started : Server.start str (run.foldl (execute windows) files).env = some server) :
    server._AUTH_USERS = entries_after str ∅ (run.foldl settle ∅).entries := by
  rw [start_named str (users_after windows nobody plain) (started_named str windows nobody plain started)] at started
  rw [← Option.some.inj started]

theorem entry_behind {items : List (String × Account)} {name : String} {entry : Entry}
    (held : (entries_after str ∅ items).get? name = some entry) :
    ∃ item ∈ items, trim item.1 = name ∧ auth_entry str item.2.value = entry := by
  obtain ⟨item,among,same⟩ := List.mem_map.mp (Dict.get?_ofList held)
  exact ⟨item,among,congrArg Prod.fst same,congrArg Prod.snd same⟩

end

/-! The identity of a token. -/

/-- Scopes that are blank do not count, and no scope at all is every scope. -/
def granted (scopes : List String) : List String :=
  let named := Identity.sorted_set ((scopes.map trim).filter (· ≠ ""))
  if named = [] then ["*"] else named

theorem compare_digest_eq {a b : String} (same : compare_digest a b = some true) : a = b := by
  rw [compare_digest] at same
  split at same
  · exact of_decide_eq_true (Option.some.inj same)
  · contradiction

section

variable (_parse_iso_dt : String → Option Datetime) (now : Datetime)

theorem first_match_mem {supplied who : String} {entries : List (String × Entry)}
    (found : first_match _parse_iso_dt now supplied entries = some (some who)) :
    ∃ entry, (who,entry) ∈ entries ∧ supplied = entry.token ∧ _is_expired _parse_iso_dt now entry.expires_at = false := by
  induction entries with
  | nil => exact absurd (Option.some.inj found) (Option.some_ne_none who).symm
  | cons first rest ih =>
    obtain ⟨name,entry⟩ := first
    rw [first_match] at found
    cases compared : compare_digest supplied entry.token with
    | none =>
      rw [compared] at found
      contradiction
    | some same =>
      cases same with
      | true =>
        cases expired : _is_expired _parse_iso_dt now entry.expires_at with
        | true =>
          simp [compared,expired] at found
        | false =>
          simp only [compared,expired,Option.bind_eq_bind,Option.bind_some,↓reduceIte,Bool.false_eq_true,pure,Option.some.injEq] at found
          obtain rfl := found
          exact ⟨entry,List.mem_cons_self,compare_digest_eq compared,expired⟩
      | false =>
        simp only [compared,Option.bind_eq_bind,Option.bind_some,↓reduceIte,Bool.false_eq_true] at found
        obtain ⟨entry',among,same,live⟩ := ih found
        exact ⟨entry',List.mem_cons_of_mem _ among,same,live⟩

theorem unexpired (reads : ∀ d, _parse_iso_dt (iso d) = some d) {expires_at : Option Datetime}
    (live : _is_expired _parse_iso_dt now (expires_at.map iso) = false) : ∀ until_ ∈ expires_at, now.instant ≤ until_.instant := by
  intro until_ given
  rw [Option.mem_def.mp given,Option.map_some,_is_expired] at live
  have kept : (some (iso until_)).filter (· ≠ "") = some (iso until_) := if_pos (decide_eq_true (iso_nonempty until_))
  simpa only [kept,Option.bind_some,reads,decide_eq_false_iff_not,not_lt] using live

end

theorem resolved_by (_parse_iso_dt : String → Option Datetime) (now : Datetime) {server : Server} {supplied who : String}
    (found : server._resolve_identity _parse_iso_dt now supplied = some (some who)) :
    (who = "owner" ∧ supplied = server.AV_API_TOKEN ∧ supplied ≠ "") ∨
      first_match _parse_iso_dt now supplied server._AUTH_USERS.entries = some (some who) := by
  rw [Server._resolve_identity] at found
  by_cases secret : server.AV_API_TOKEN ≠ ""
  · cases compared : compare_digest supplied server.AV_API_TOKEN with
    | none => simp [secret,compared] at found
    | some same =>
      cases same with
      | true =>
        have equal := compare_digest_eq compared
        simp only [secret,compared,ne_eq,not_false_eq_true,↓reduceIte,Option.bind_eq_bind,Option.bind_some,pure,
          Option.some.injEq] at found
        exact .inl ⟨found.symm,equal,equal ▸ secret⟩
      | false => exact .inr (by simpa [secret,compared] using found)
  · exact .inr (by simpa [secret] using found)

theorem scopes_behind (server : Server) {who : String} {str : JsonValue → String} {account : Account} (apart : who ≠ "owner")
    (named : who ≠ "") (held : server._AUTH_USERS.get? who = some (auth_entry str account.value)) :
    server._scopes_for_identity who = granted account.scopes := by
  have kept : (some who).filter (· ≠ "") = some who := if_pos (decide_eq_true named)
  simp only [Server._scopes_for_identity,if_neg apart,kept,Option.bind_some,held,entry_value,granted]
  cases account.scopes with
  | nil => simp [Identity.sorted_set]
  | cons scope rest =>
    simp only [List.cons_ne_nil,↓reduceIte]
    cases Identity.sorted_set (((scope::rest).map trim).filter (· ≠ "")) with
    | nil => rfl
    | cons first more => rfl

section

variable (str : JsonValue → String) (_parse_iso_dt : String → Option Datetime) (now : Datetime)

def iso_dt (s : String) : Option Datetime := (Datetime.fromisoformat s.toList).map Prod.fst

theorem iso_dt_iso (d : Datetime) : iso_dt (iso d) = some d := by
  rw [iso_dt,iso,String.toList_ofList,Datetime.fromisoformat_utc]
  rfl

theorem ada_resolves : (Server.start (fun _ => "") ([ada].foldl (execute true) no_files).env).map
    (fun server => server._resolve_identity iso_dt first_of_may "t") = some (some (some "ada")) := by decide +kernel

/-- The entry of a user whose name no other name comes down to. -/
theorem entry_of_set (known : Known) {username : String} (account : Account)
    (alone : ∀ other, known.contains other = true → trim other = trim username → other = username) :
    (entries_after str ∅ (known.set username account).entries).get? (trim username) = some (auth_entry str account.value) := by
  have member := (Dict.mem_entries _ _ _).mpr (Dict.get?_set_same known username account)
  have mapped := List.mem_map_of_mem (f := fun item : String × Account => (trim item.1,auth_entry str item.2.value)) member
  obtain ⟨value,found⟩ := (Dict.contains_iff _ _).mp (Dict.contains_ofList mapped)
  obtain ⟨item,among,same,rfl⟩ := entry_behind str found
  refine (found : (entries_after str ∅ (known.set username account).entries).get? (trim username) = _).trans ?_
  have there := (Dict.mem_entries _ _ _).mp among
  rw [Dict.get?_set] at there
  split at there
  · rw [Option.some.inj there]
  · rename_i other
    exact absurd (alone item.1 ((Dict.contains_iff _ _).mpr ⟨item.2,there⟩) same) other

end

theorem ada_rotates : (Server.start (fun _ => "") (execute true ([ada].foldl (execute true) no_files)
    ⟨.rotate (some "ada"),"h",first_of_may⟩).env).isSome = true := by decide +kernel

end AetherVault.AccessTokens
