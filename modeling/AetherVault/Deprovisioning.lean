import AetherVault.CommitRows
import AetherVault.Lib.PyString
import AetherVault.SsoLogin

/-! The accounts of `scim.py` and the admin routes: how a user is deactivated, and what of the user's credentials still
resolves afterwards, in runs of logins, token creations, SCIM requests and admin operations. -/
namespace AetherVault.Identity
open Lib

/-! One user's rows. -/

def revoke_sessions (d : Directory) (user_id : String) (now : Nat) : Directory :=
  {d with sessions := d.sessions.map fun _ row =>
    if row.user_id = user_id ∧ row.revoked_at = none then {row with revoked_at := some now} else row}

def revoke_tokens (d : Directory) (user_id : String) (now : Nat) : Directory :=
  {d with api_tokens := d.api_tokens.map fun _ row =>
    if row.user_id = some user_id ∧ row.revoked_at = none then {row with revoked_at := some now} else row}

def set_user (d : Directory) (user_id : String) (change : User → User) : Directory :=
  {d with users := d.users.modify user_id change}

def set_status (d : Directory) (user_id : String) (status : UserStatus) : Directory :=
  set_user d user_id fun user => {user with status := status}

def suspended (d : Directory) (user_id : String) : Bool := (d.users.get? user_id).any fun user => user.status = .suspended

/-- Sessions are revoked when the status changes; API tokens never are. -/
def _set_user_active (d : Directory) (user_id : String) (active : Bool) (now : Nat) : Directory :=
  let was_suspended := suspended d user_id
  let d := set_status d user_id (if active then .active else .suspended)
  if !active && !was_suspended then revoke_sessions d user_id now else d

def tenant_user (d : Directory) (tenant_id user_id : String) : Option User :=
  (d.users.get? user_id).filter fun user => user.tenant_id = tenant_id

/-! The routes; `none` is a refusal or an error of the database, after which nothing is written. -/

def suspend_user (d : Directory) (tenant_id user_id : String) (now : Nat) : Option Directory :=
  (tenant_user d tenant_id user_id).map fun _ =>
    revoke_sessions (revoke_tokens (set_status d user_id .suspended) user_id now) user_id now

def scim_delete_user (d : Directory) (tenant_id user_id : String) (now : Nat) : Option Directory :=
  (tenant_user d tenant_id user_id).map fun _ => _set_user_active d user_id false now

def _first_email (body : List (String × JsonValue)) : Option JsonValue :=
  match Dict.find body "emails" with
  | some (.list (first::rest)) =>
    let primary := ((first::rest).find? fun item => match item with
      | .dict members => (Dict.find members "primary").any truthy
      | _ => false).getD first
    match primary with
    | .dict members => Dict.find members "value"
    | _ => Dict.find body "email"
  | _ => Dict.find body "email"

/-- A column of text takes nothing but text. -/
def set_username (d : Directory) (user_id : String) : JsonValue → Option Directory
  | .string username => some (set_user d user_id fun user => {user with username := username})
  | _ => none

def set_email (d : Directory) (user_id : String) : JsonValue → Option Directory
  | .string email => some (set_user d user_id fun user => {user with email := some email})
  | _ => none

/-- No other user of the tenant has the user's name or address. -/
def unique (d : Directory) (tenant_id user_id : String) : Bool :=
  (d.users.get? user_id).all fun user => d.users.entries.all fun row => row.1 = user_id || row.2.tenant_id ≠ tenant_id ||
    row.2.username ≠ user.username && (user.email.isNone || row.2.email ≠ user.email)

def checked (tenant_id user_id : String) (d : Directory) : Option Directory := if unique d tenant_id user_id then some d else none

def put_username (body : List (String × JsonValue)) (user_id : String) (d : Directory) : Option Directory :=
  match (Dict.find body "userName").filter truthy with
  | none => some d
  | some value => set_username d user_id value

def put_email (body : List (String × JsonValue)) (user_id : String) (d : Directory) : Option Directory :=
  match _first_email body with
  | none => some d
  | some .null => some d
  | some value => set_email d user_id value

def put_active (body : List (String × JsonValue)) : JsonValue := (Dict.find body "active").getD (.boolean true)

def scim_replace_user (d : Directory) (tenant_id user_id : String) (body : List (String × JsonValue)) (now : Nat) : Option Directory := do
  let _ ← tenant_user d tenant_id user_id
  let named ← put_username body user_id d
  let addressed ← put_email body user_id named
  checked tenant_id user_id (_set_user_active addressed user_id (truthy (put_active body)) now)

structure PatchOp where
  path : Option String
  value : JsonValue

/-- `(op.get("path") or "").strip().lower()`; a letter beyond ASCII is no letter of the names it is compared with. -/
def PatchOp.target (op : PatchOp) : String :=
  String.ofList ((PyString.strip (op.path.getD "").toList).map Char.toLower)

/-- The active flag that an operation brings, if it does. -/
def PatchOp.active (op : PatchOp) : Option JsonValue :=
  if op.target = "active" then some op.value
  else match op.value with
    | .dict members => if op.target = "" then Dict.find members "active" else none
    | _ => none

def patch_email (members : List (String × JsonValue)) (user_id : String) (d : Directory) : Option Directory :=
  match (_first_email members).filter truthy with
  | none => some d
  | some value => set_email d user_id value

/-- An operation's part in the user's name and address. -/
def PatchOp.rename (op : PatchOp) (user_id : String) (d : Directory) : Option Directory :=
  if op.target = "username" then set_username d user_id op.value
  else match op.value with
    | .dict members => if op.target = "" then patch_email members user_id d else some d
    | _ => some d

def PatchOp.activate (op : PatchOp) (user_id : String) (now : Nat) (d : Directory) : Directory :=
  match op.active with
  | none => d
  | some value => _set_user_active d user_id (truthy value) now

def PatchOp.apply (user_id : String) (now : Nat) (d : Directory) (op : PatchOp) : Option Directory :=
  op.rename user_id (op.activate user_id now d)

def scim_patch_user (d : Directory) (tenant_id user_id : String) (operations : List PatchOp) (now : Nat) : Option Directory := do
  let _ ← tenant_user d tenant_id user_id
  let patched ← operations.foldlM (PatchOp.apply user_id now) d
  checked tenant_id user_id patched

def add_user (uuid : Directory → String) (d : Directory) (user : User) : Option Directory :=
  if d.users.contains (uuid d) then none
  else checked user.tenant_id (uuid d) {d with users := d.users.set (uuid d) user}

def new_email (body : List (String × JsonValue)) : Option (Option String) :=
  match _first_email body with
  | none => some none
  | some .null => some none
  | some (.string email) => some (some email)
  | _ => none

def scim_create_user (uuid : Directory → String) (d : Directory) (tenant_id : String) (body : List (String × JsonValue)) :
    Option Directory :=
  match Dict.find body "userName",new_email body with
  | some (.string username),some email =>
    if username = "" then none
    else add_user uuid d ⟨tenant_id,username,email,if truthy (put_active body) then .active else .suspended⟩
  | _,_ => none

def create_user (uuid : Directory → String) (d : Directory) (tenant_id username : String) (email : Option String) : Option Directory :=
  if username = "" then none else add_user uuid d ⟨tenant_id,username,email,.active⟩

/-- Logout at the identity provider. -/
def saml_sls (d : Directory) (name_id : String) (now : Nat) : Option Directory :=
  match d.identities.filter fun row => name_id ≠ "" && row.subject = name_id with
  | [identity] => some (revoke_sessions d identity.user_id now)
  | _ => none

def revoke_api_token (d : Directory) (tenant_id token_id : String) (now : Nat) : Option Directory :=
  ((d.api_tokens.get? token_id).filter fun row => row.tenant_id = tenant_id).map fun row =>
    if row.revoked_at = none then {d with api_tokens := d.api_tokens.set token_id {row with revoked_at := some now}} else d

def DEFAULT_TENANT_ID : String := "00000000-0000-0000-0000-000000000001"

/-- What a token is minted from; the environment gives its key and hash. -/
structure TokenRequest where
  uuid : Directory → String
  name : String
  scopes : Option (List String)
  expires_in_days : Option Int
  token_hash : String

/-- The row of a new token; `none` for a caller whom no credential of the tables names. -/
def TokenRequest.row (body : TokenRequest) (day : Nat) (principal : Option Principal) (now : Nat) : ApiToken where
  tenant_id := ((principal.bind Principal.tenant_id).filter (· ≠ "")).getD DEFAULT_TENANT_ID
  user_id := principal.bind Principal.user_id
  name := body.name
  token_hash := body.token_hash
  scopes := body.scopes
  expires_at := body.expires_in_days.map fun days => ((now : Int) + days * day).toNat
  revoked_at := none

def create_api_token (day : Nat) (d : Directory) (principal : Option Principal) (body : TokenRequest) (now : Nat) : Option Directory :=
  if body.name = "" || d.api_tokens.contains (body.uuid d) || d.api_tokens.entries.any (fun row => row.2.token_hash = body.token_hash)
  then none
  else some {d with api_tokens := d.api_tokens.set (body.uuid d) (body.row day principal now)}

/-! Runs of the service. -/

structure Service where
  limits : CacheLimits
  protected_mode : Bool
  day : Nat

/-- The tables, the cache and the clock, and since when each user is deprovisioned who is. -/
structure Accounts where
  directory : Directory
  cache : Cache
  now : Nat
  deprovisioned : Dict String Nat

inductive Operation
  | tick (n : Nat)
  | request (token_hash : String)
  | login (login : Login)
  | create_api_token (bearer : Option String) (body : TokenRequest)
  | revoke_api_token (tenant_id token_id : String)
  | saml_sls (name_id : String)
  | create_user (uuid : Directory → String) (tenant_id username : String) (email : Option String)
  | suspend_user (tenant_id user_id : String)
  | scim_create (uuid : Directory → String) (tenant_id : String) (body : List (String × JsonValue))
  | scim_replace (tenant_id user_id : String) (body : List (String × JsonValue))
  | scim_patch (tenant_id user_id : String) (operations : List PatchOp)
  | scim_delete (tenant_id user_id : String)
  | administer (groups : Dict String Group) (members : List (String × String)) (roles : Dict String Role) (bindings : Dict String RoleBinding)

/-- What an active flag stands for: the values that Python takes for false, and the word for it. -/
def means_inactive : JsonValue → Bool
  | .string s => s = "" || s.toList.map Char.toLower = "false".toList
  | value => !truthy value

/-- The active flag that a PATCH asks for, the last one that an operation brings. -/
def patch_active (operations : List PatchOp) : Option JsonValue := operations.foldl (fun asked op => op.active.or asked) none

def Accounts.write (s : Accounts) (after : Option Directory) : Accounts := {s with directory := after.getD s.directory}

/-- Who is deprovisioned once the flag has been asked for. -/
def Accounts.asked (s : Accounts) (user_id : String) : Option JsonValue → Dict String Nat
  | none => s.deprovisioned
  | some value =>
    if means_inactive value then
      if s.deprovisioned.contains user_id then s.deprovisioned else s.deprovisioned.set user_id s.now
    else s.deprovisioned.erase user_id

def Accounts.activate (s : Accounts) (user_id : String) (flag : Option JsonValue) : Option Directory → Accounts
  | none => s
  | some after => {s with directory := after, deprovisioned := s.asked user_id flag}

namespace Service
variable (service : Service)

def caller (s : Accounts) : Option String → Option Principal × Cache
  | none => (none,s.cache)
  | some token_hash => require_token service.limits s.directory s.cache s.now token_hash

def may_mint (s : Accounts) (bearer : Option String) : Bool :=
  bearer.all fun token_hash => passes service.limits service.protected_mode s.directory s.cache s.now token_hash "token:write"

/-- A creation that is refused writes nothing but the cache. -/
def mint (s : Accounts) (bearer : Option String) (body : TokenRequest) : Accounts :=
  let found := service.caller s bearer
  let s' := {s with cache := found.2}
  if service.may_mint s bearer then s'.write (create_api_token service.day s.directory found.1 body s.now) else s'

def step (s : Accounts) : Operation → Accounts
  | .tick n => {s with now := s.now + n}
  | .request token_hash => {s with cache := (require_token service.limits s.directory s.cache s.now token_hash).2}
  | .login login => {s with directory := log_in s.directory login}
  | .create_api_token bearer body => service.mint s bearer body
  | .revoke_api_token tenant_id token_id => s.write (revoke_api_token s.directory tenant_id token_id s.now)
  | .saml_sls name_id => s.write (saml_sls s.directory name_id s.now)
  | .create_user uuid tenant_id username email => s.write (create_user uuid s.directory tenant_id username email)
  | .suspend_user tenant_id user_id =>
    s.activate user_id (some (.boolean false)) (suspend_user s.directory tenant_id user_id s.now)
  | .scim_create uuid tenant_id body => s.write (scim_create_user uuid s.directory tenant_id body)
  | .scim_replace tenant_id user_id body =>
    s.activate user_id (some (put_active body)) (scim_replace_user s.directory tenant_id user_id body s.now)
  | .scim_patch tenant_id user_id operations =>
    s.activate user_id (patch_active operations) (scim_patch_user s.directory tenant_id user_id operations s.now)
  | .scim_delete tenant_id user_id =>
    s.activate user_id (some (.boolean false)) (scim_delete_user s.directory tenant_id user_id s.now)
  | .administer groups members roles bindings =>
    {s with directory := {s.directory with groups := groups, group_members := members, roles := roles, role_bindings := bindings}}

/-- The principals that a token hash resolves to, as an API token or as a session. -/
def Resolves (s : Accounts) (token_hash : String) (principal : Principal) : Prop :=
  (resolve_db_token service.limits s.directory s.cache s.now token_hash).1 = some principal ∨
    (resolve_session service.limits s.directory s.cache s.now token_hash).1 = some principal

/-- Once the cache's TTL has passed, nothing resolves to a user who is deprovisioned. -/
def Gone (s : Accounts) : Prop := ∀ user_id since token_hash principal, s.deprovisioned.get? user_id = some since →
  since + service.limits.ttl ≤ s.now → service.Resolves s token_hash principal → principal.user_id ≠ some user_id

/-- The user has no API token that is neither revoked nor expired. -/
def Tokenless (s : Accounts) (user_id : String) : Prop := ∀ id row, s.directory.api_tokens.get? id = some row →
  row.user_id = some user_id → row.live s.now = false

/-- A flag that stands for false is one that Python takes for false, and comes to a user without API tokens. -/
def Deactivates (s : Accounts) (user_id : String) (flag : JsonValue) : Prop :=
  means_inactive flag = true → truthy flag = false ∧ Tokenless s user_id

def Fits (s : Accounts) : Operation → Prop
  | .scim_replace tenant_id user_id body =>
    scim_replace_user s.directory tenant_id user_id body s.now ≠ none → Deactivates s user_id (put_active body)
  | .scim_patch tenant_id user_id operations => scim_patch_user s.directory tenant_id user_id operations s.now ≠ none →
    ∀ flag, patch_active operations = some flag → Deactivates s user_id flag
  | .scim_delete tenant_id user_id =>
    scim_delete_user s.directory tenant_id user_id s.now ≠ none → Deactivates s user_id (.boolean false)
  | .create_api_token bearer _ => service.may_mint s bearer = true → ∀ principal user_id,
    (service.caller s bearer).1 = some principal → principal.user_id = some user_id → s.deprovisioned.get? user_id = none
  | _ => True

end Service

/-! What the operations on one user do to the tables. -/

/-- Sessions have their users, and a suspended user has none that is not revoked. -/
structure Idle (d : Directory) : Prop where
  owned : ∀ id row, d.sessions.get? id = some row → ∃ user, d.users.get? row.user_id = some user
  revoked : ∀ id row, d.sessions.get? id = some row → row.revoked_at = none → suspended d row.user_id = false

/-- An operation on one user leaves the others alone and gives no credential. -/
structure Touches (d d' : Directory) (user_id : String) : Prop where
  others : ∀ other, other ≠ user_id → d'.users.get? other = d.users.get? other
  kept : ∀ user, d.users.get? user_id = some user → ∃ user', d'.users.get? user_id = some user'
  tokens : ∀ id row', d'.api_tokens.get? id = some row' → ∃ row, d.api_tokens.get? id = some row ∧
    row.user_id = row'.user_id ∧ ∀ now, row'.live now = true → row.live now = true
  idle : Idle d → Idle d'

theorem touches_refl (d : Directory) (user_id : String) : Touches d d user_id where
  others _ _ := rfl
  kept user known := ⟨user,known⟩
  tokens _ row held := ⟨row,held,rfl,fun _ live => live⟩
  idle idle := idle

theorem Touches.trans {d d' d'' : Directory} {user_id : String} (first : Touches d d' user_id) (second : Touches d' d'' user_id) :
    Touches d d'' user_id where
  others other differ := (second.others other differ).trans (first.others other differ)
  kept user known := by
    obtain ⟨user',known'⟩ := first.kept user known
    exact second.kept user' known'
  tokens id row'' held := by
    obtain ⟨row',held',owner',live'⟩ := second.tokens id row'' held
    obtain ⟨row,held,owner,live⟩ := first.tokens id row' held'
    exact ⟨row,held,owner.trans owner',fun now lives => live now (live' now lives)⟩
  idle idle := second.idle (first.idle idle)

theorem Touches.suspended_other {d d' : Directory} {user_id other : String} (touches : Touches d d' user_id) (differ : other ≠ user_id) :
    suspended d' other = suspended d other := by
  unfold suspended
  rw [touches.others other differ]

theorem Touches.tokenless {d d' : Directory} {user_id other : String} {now : Nat} (touches : Touches d d' user_id)
    (dead : ∀ id row, d.api_tokens.get? id = some row → row.user_id = some other → row.live now = false)
    (id : String) (row' : ApiToken) (found : d'.api_tokens.get? id = some row') (owner : row'.user_id = some other) :
    row'.live now = false := by
  obtain ⟨row,before,same,live⟩ := touches.tokens id row' found
  by_contra lives
  have dead := dead id row before (same.trans owner)
  rw [live now (by simpa using lives)] at dead
  contradiction

/-- A change of the user's columns, the status apart, keeps who is suspended. -/
theorem set_user_suspended (d : Directory) (user_id other : String) (change : User → User)
    (standing : ∀ user, (change user).status = user.status) : suspended (set_user d user_id change) other = suspended d other := by
  unfold suspended set_user
  rw [Dict.get?_modify]
  by_cases same : other = user_id
  · rw [if_pos same,same]
    cases d.users.get? user_id with
    | none => rfl
    | some user => simp [standing]
  · rw [if_neg same]

theorem set_user_users (d : Directory) (user_id other : String) (change : User → User) :
    (set_user d user_id change).users.get? other = if other = user_id then (d.users.get? user_id).map change else d.users.get? other :=
  Dict.get?_modify d.users user_id other change

/-- The user's columns change and nothing else. -/
theorem set_user_touches {d : Directory} {user_id : String} {change : User → User}
    (idle : Idle d → ∀ id row, d.sessions.get? id = some row → row.revoked_at = none →
      suspended (set_user d user_id change) row.user_id = false) : Touches d (set_user d user_id change) user_id where
  others other differ := by rw [set_user_users,if_neg differ]
  kept user known := ⟨change user,by rw [set_user_users,if_pos rfl,known]; rfl⟩
  tokens _ row held := ⟨row,held,rfl,fun _ live => live⟩
  idle kept := by
    refine ⟨fun id row held => ?_,idle kept⟩
    obtain ⟨user,known⟩ := kept.owned id row held
    rw [set_user_users]
    by_cases same : row.user_id = user_id
    · exact ⟨change user,by rw [if_pos same,← same,known]; rfl⟩
    · exact ⟨user,by rw [if_neg same,known]⟩

theorem column_touches (d : Directory) (user_id : String) (change : User → User) (standing : ∀ user, (change user).status = user.status) :
    Touches d (set_user d user_id change) user_id :=
  set_user_touches fun idle id row held unrevoked => by
    rw [set_user_suspended d user_id row.user_id change standing]
    exact idle.revoked id row held unrevoked

theorem set_status_suspended {d : Directory} {user_id : String} {user : User} (known : d.users.get? user_id = some user)
    (status : UserStatus) : suspended (set_status d user_id status) user_id = decide (status = .suspended) := by
  unfold suspended set_status
  rw [set_user_users,if_pos rfl,known]
  rfl

theorem set_status_other (d : Directory) {user_id other : String} (status : UserStatus) (differ : other ≠ user_id) :
    suspended (set_status d user_id status) other = suspended d other := by
  unfold suspended set_status
  rw [set_user_users,if_neg differ]

theorem revoked_session {d : Directory} {user_id id : String} {now : Nat} {row' : Session}
    (held : (revoke_sessions d user_id now).sessions.get? id = some row') : ∃ row, d.sessions.get? id = some row ∧
      row.user_id = row'.user_id ∧ (row'.revoked_at = none → row.revoked_at = none ∧ row.user_id ≠ user_id) := by
  unfold revoke_sessions at held
  rw [Dict.get?_map,Option.map_eq_some_iff] at held
  obtain ⟨row,before,changed⟩ := held
  refine ⟨row,before,?_,?_⟩
  · rw [← changed]
    split <;> rfl
  · intro unrevoked
    rw [← changed] at unrevoked
    split at unrevoked
    · contradiction
    · rename_i spared
      exact ⟨unrevoked,fun same => spared ⟨same,unrevoked⟩⟩

theorem revoked_token {d : Directory} {user_id id : String} {now : Nat} {row' : ApiToken}
    (held : (revoke_tokens d user_id now).api_tokens.get? id = some row') : ∃ row, d.api_tokens.get? id = some row ∧
      row.user_id = row'.user_id ∧ ∀ t, row'.live t = true → row.live t = true ∧ row.user_id ≠ some user_id := by
  unfold revoke_tokens at held
  rw [Dict.get?_map,Option.map_eq_some_iff] at held
  obtain ⟨row,before,changed⟩ := held
  refine ⟨row,before,?_,?_⟩
  · rw [← changed]
    split <;> rfl
  · intro t live
    rw [← changed] at live
    split at live
    · simp [ApiToken.live] at live
    · rename_i spared
      refine ⟨live,fun same => spared ⟨same,?_⟩⟩
      rw [ApiToken.live,Bool.and_eq_true,Option.isNone_iff_eq_none] at live
      exact live.1

/-- Suspending a user and revoking the user's sessions. -/
theorem suspension_touches {d d' : Directory} {user_id : String} {now : Nat}
    (users : d'.users = (set_status d user_id .suspended).users) (sessions : d'.sessions = (revoke_sessions d user_id now).sessions)
    (tokens : ∀ id row', d'.api_tokens.get? id = some row' → ∃ row, d.api_tokens.get? id = some row ∧
      row.user_id = row'.user_id ∧ ∀ t, row'.live t = true → row.live t = true) : Touches d d' user_id where
  others other differ := by
    rw [users,set_status,set_user_users,if_neg differ]
  kept user known := ⟨{user with status := .suspended},by rw [users,set_status,set_user_users,if_pos rfl,known]; rfl⟩
  tokens := tokens
  idle idle := by
    constructor
    · intro id row' held
      rw [sessions] at held
      obtain ⟨row,before,owner,-⟩ := revoked_session held
      obtain ⟨user,known⟩ := idle.owned id row before
      rw [users,set_status,set_user_users,← owner]
      by_cases same : row.user_id = user_id
      · exact ⟨{user with status := .suspended},by rw [if_pos same,← same,known]; rfl⟩
      · exact ⟨user,by rw [if_neg same,known]⟩
    · intro id row' held unrevoked
      rw [sessions] at held
      obtain ⟨row,before,owner,spared⟩ := revoked_session held
      obtain ⟨still,differ⟩ := spared unrevoked
      have same : suspended d' row.user_id = suspended (set_status d user_id .suspended) row.user_id := by
        unfold suspended
        rw [users]
      rw [← owner,same,set_status_other d _ differ]
      exact idle.revoked id row before still

/-- The user's status is the one asked for. -/
theorem set_user_active_ok {d : Directory} {user_id : String} {user : User} (known : d.users.get? user_id = some user)
    (active : Bool) (now : Nat) : Touches d (_set_user_active d user_id active now) user_id ∧
      suspended (_set_user_active d user_id active now) user_id = !active := by
  unfold _set_user_active
  dsimp only
  cases active with
  | true =>
    have standing : suspended (set_status d user_id .active) user_id = false := set_status_suspended known .active
    refine ⟨set_user_touches fun idle id row held unrevoked => ?_,standing⟩
    by_cases same : row.user_id = user_id
    · rw [same]
      exact standing
    · exact (set_status_other d .active same).trans (idle.revoked id row held unrevoked)
  | false =>
    have standing : suspended (set_status d user_id .suspended) user_id = true := set_status_suspended known .suspended
    cases was : suspended d user_id with
    | true =>
      refine ⟨set_user_touches fun idle id row held unrevoked => ?_,standing⟩
      have differ : row.user_id ≠ user_id := by
        intro same
        have active := idle.revoked id row held unrevoked
        rw [same,was] at active
        contradiction
      exact (set_status_other d .suspended differ).trans (idle.revoked id row held unrevoked)
    | false => exact ⟨suspension_touches rfl rfl fun id row held => ⟨row,held,rfl,fun _ live => live⟩,standing⟩

theorem tenant_user_some {d : Directory} {tenant_id user_id : String} {user : User} (found : tenant_user d tenant_id user_id = some user) :
    d.users.get? user_id = some user := by
  rw [tenant_user,Option.filter_eq_some_iff] at found
  exact found.1

theorem suspend_user_ok {d d' : Directory} {tenant_id user_id : String} {now : Nat} (done : suspend_user d tenant_id user_id now = some d') :
    Touches d d' user_id ∧ suspended d' user_id = true ∧
      ∀ id row, d'.api_tokens.get? id = some row → row.user_id = some user_id → ∀ t, row.live t = false := by
  rw [suspend_user,Option.map_eq_some_iff] at done
  obtain ⟨user,found,rfl⟩ := done
  refine ⟨suspension_touches rfl rfl fun id row' held => ?_,set_status_suspended (tenant_user_some found) .suspended,
    fun id row' held owner t => ?_⟩
  · obtain ⟨row,before,same,live⟩ := revoked_token held
    exact ⟨row,before,same,fun t lives => (live t lives).1⟩
  · obtain ⟨row,-,same,live⟩ := revoked_token held
    by_contra lives
    exact (live t (by simpa using lives)).2 (same.trans owner)

theorem checked_some {tenant_id user_id : String} {d d' : Directory} (done : checked tenant_id user_id d = some d') : d' = d := by
  unfold checked at done
  split at done
  · exact (Option.some.inj done).symm
  · contradiction

/-- What a column takes changes nothing of who is suspended. -/
structure Column (d d' : Directory) (user_id : String) : Prop where
  touches : Touches d d' user_id
  standing : suspended d' user_id = suspended d user_id

theorem column_refl (d : Directory) (user_id : String) : Column d d user_id := ⟨touches_refl d user_id,rfl⟩

theorem set_username_ok {d d' : Directory} {user_id : String} {value : JsonValue} (done : set_username d user_id value = some d') :
    Column d d' user_id := by
  cases value with
  | string username =>
    cases done
    exact ⟨column_touches d user_id _ fun _ => rfl,set_user_suspended d user_id user_id _ fun _ => rfl⟩
  | _ => contradiction

theorem set_email_ok {d d' : Directory} {user_id : String} {value : JsonValue} (done : set_email d user_id value = some d') :
    Column d d' user_id := by
  cases value with
  | string email =>
    cases done
    exact ⟨column_touches d user_id _ fun _ => rfl,set_user_suspended d user_id user_id _ fun _ => rfl⟩
  | _ => contradiction

theorem put_username_ok {body : List (String × JsonValue)} {d d' : Directory} {user_id : String}
    (done : put_username body user_id d = some d') : Column d d' user_id := by
  unfold put_username at done
  split at done
  · cases done
    exact column_refl d user_id
  · exact set_username_ok done

theorem put_email_ok {body : List (String × JsonValue)} {d d' : Directory} {user_id : String}
    (done : put_email body user_id d = some d') : Column d d' user_id := by
  unfold put_email at done
  split at done
  · cases done
    exact column_refl d user_id
  · cases done
    exact column_refl d user_id
  · exact set_email_ok done

theorem rename_ok {op : PatchOp} {d d' : Directory} {user_id : String} (done : op.rename user_id d = some d') : Column d d' user_id := by
  unfold PatchOp.rename at done
  split at done
  · exact set_username_ok done
  · split at done
    · split at done
      · unfold patch_email at done
        split at done
        · cases done
          exact column_refl d user_id
        · exact set_email_ok done
      · cases done
        exact column_refl d user_id
    · cases done
      exact column_refl d user_id

theorem scim_delete_user_ok {d d' : Directory} {tenant_id user_id : String} {now : Nat}
    (done : scim_delete_user d tenant_id user_id now = some d') : Touches d d' user_id ∧ suspended d' user_id = true := by
  rw [scim_delete_user,Option.map_eq_some_iff] at done
  obtain ⟨user,found,rfl⟩ := done
  exact set_user_active_ok (tenant_user_some found) false now

theorem scim_replace_user_ok {d d' : Directory} {tenant_id user_id : String} {body : List (String × JsonValue)} {now : Nat}
    (done : scim_replace_user d tenant_id user_id body now = some d') :
    Touches d d' user_id ∧ suspended d' user_id = !truthy (put_active body) := by
  simp only [scim_replace_user,Option.bind_eq_bind,Option.bind_eq_some_iff] at done
  obtain ⟨user,found,named,renamed,addressed,moved,done⟩ := done
  have first := (put_username_ok renamed).touches
  have second := (put_email_ok moved).touches
  obtain ⟨user',known'⟩ := first.kept user (tenant_user_some found)
  obtain ⟨user'',known''⟩ := second.kept user' known'
  obtain ⟨last,standing⟩ := set_user_active_ok known'' (truthy (put_active body)) now
  rw [checked_some done]
  exact ⟨(first.trans second).trans last,standing⟩

/-- One operation of a PATCH, after those that have asked for a flag or for none. -/
theorem apply_ok {user_id : String} {now : Nat} {d d' : Directory} {op : PatchOp} {user : User}
    (known : d.users.get? user_id = some user) (done : op.apply user_id now d = some d') :
    Touches d d' user_id ∧ suspended d' user_id = op.active.elim (suspended d user_id) fun flag => !truthy flag := by
  have renamed := rename_ok done
  unfold PatchOp.activate at renamed
  cases asked : op.active with
  | none =>
    rw [asked] at renamed
    exact ⟨renamed.touches,renamed.standing⟩
  | some flag =>
    rw [asked] at renamed
    obtain ⟨first,standing⟩ := set_user_active_ok known (truthy flag) now
    exact ⟨first.trans renamed.touches,renamed.standing.trans standing⟩

theorem apply_all_ok {user_id : String} {now : Nat} {operations : List PatchOp} {d d' : Directory} {user : User} {before : Bool}
    {asked : Option JsonValue} (known : d.users.get? user_id = some user)
    (standing : suspended d user_id = asked.elim before fun flag => !truthy flag)
    (done : operations.foldlM (PatchOp.apply user_id now) d = some d') : Touches d d' user_id ∧
      suspended d' user_id = (operations.foldl (fun asked op => op.active.or asked) asked).elim before fun flag => !truthy flag := by
  induction operations generalizing d user asked with
  | nil =>
    cases done
    exact ⟨touches_refl _ user_id,standing⟩
  | cons op rest ih =>
    rw [List.foldlM_cons,Option.bind_eq_bind,Option.bind_eq_some_iff] at done
    obtain ⟨next,applied,done⟩ := done
    obtain ⟨first,now_standing⟩ := apply_ok known applied
    obtain ⟨user',known'⟩ := first.kept user known
    have asked_now : suspended next user_id = (op.active.or asked).elim before fun flag => !truthy flag := by
      rw [now_standing]
      cases op.active with
      | none => exact standing
      | some flag => rfl
    obtain ⟨second,after⟩ := ih known' asked_now done
    rw [List.foldl_cons]
    exact ⟨first.trans second,after⟩

theorem scim_patch_user_ok {d d' : Directory} {tenant_id user_id : String} {operations : List PatchOp} {now : Nat}
    (done : scim_patch_user d tenant_id user_id operations now = some d') : Touches d d' user_id ∧
      suspended d' user_id = (patch_active operations).elim (suspended d user_id) fun flag => !truthy flag := by
  simp only [scim_patch_user,Option.bind_eq_bind,Option.bind_eq_some_iff] at done
  obtain ⟨user,found,patched,applied,done⟩ := done
  rw [checked_some done]
  have start : suspended d user_id = (none : Option JsonValue).elim (suspended d user_id) fun flag => !truthy flag := rfl
  exact apply_all_ok (tenant_user_some found) start applied

/-! What holds in every state. -/

/-- The tables: a deprovisioned user is suspended and has no API token that lives. -/
structure Consistent (d : Directory) (deprovisioned : Dict String Nat) (now : Nat) : Prop where
  idle : Idle d
  suspended : ∀ user_id since, deprovisioned.get? user_id = some since → suspended d user_id = true
  tokenless : ∀ user_id since id row, deprovisioned.get? user_id = some since → d.api_tokens.get? id = some row →
    row.user_id = some user_id → row.live now = false

/-- The cache: no entry lives for longer than the TTL, and one for a deprovisioned user is older than that. -/
structure Bounded (ttl : Nat) (cache : Cache) (deprovisioned : Dict String Nat) (now : Nat) : Prop where
  fresh : ∀ key entry, cache.get? key = some entry → entry.1 ≤ now + ttl
  stale : ∀ key expires_at principal user_id since, cache.get? key = some (expires_at,some principal) →
    principal.user_id = some user_id → deprovisioned.get? user_id = some since → expires_at ≤ since + ttl

theorem live_later {row : ApiToken} {now later : Nat} (order : now ≤ later) (dead : row.live now = false) : row.live later = false := by
  by_contra lives
  rw [Bool.not_eq_false,ApiToken.live,Bool.and_eq_true,Option.all_eq_true] at lives
  rw [ApiToken.live,lives.1,Bool.true_and,Option.all_eq_false] at dead
  obtain ⟨expires_at,until_then,dead⟩ := dead
  have later := lives.2 expires_at until_then
  simp only [decide_eq_true_eq,decide_eq_false_iff_not] at later dead
  omega

section
variable {d d' : Directory} {deprovisioned : Dict String Nat} {now : Nat} {user_id : String} {principal : Principal}

theorem Consistent.later (consistent : Consistent d deprovisioned now) (n : Nat) : Consistent d deprovisioned (now + n) where
  idle := consistent.idle
  suspended := consistent.suspended
  tokenless user_id since id row gone held owner :=
    live_later (by omega) (consistent.tokenless user_id since id row gone held owner)

/-- Users and credentials are added: sessions to active users, API tokens to users who are not deprovisioned. -/
theorem Consistent.grow (consistent : Consistent d deprovisioned now)
    (users : ∀ user_id user, d.users.get? user_id = some user → d'.users.get? user_id = some user)
    (sessions : ∀ id row, d'.sessions.get? id = some row → d.sessions.get? id = some row ∨
      ∃ user, d'.users.get? row.user_id = some user ∧ user.status = .active)
    (tokens : ∀ id row, d'.api_tokens.get? id = some row → d.api_tokens.get? id = some row ∨
      ∀ user_id, row.user_id = some user_id → deprovisioned.get? user_id = none) : Consistent d' deprovisioned now := by
  have same {user_id : String} {user : User} (known : d.users.get? user_id = some user) :
      Identity.suspended d' user_id = Identity.suspended d user_id := by
    unfold Identity.suspended
    rw [known,users user_id user known]
  refine ⟨⟨fun id row held => ?_,fun id row held unrevoked => ?_⟩,fun user_id since gone => ?_,
    fun user_id since id row gone held owner => ?_⟩
  · cases sessions id row held with
    | inl before =>
      obtain ⟨user,known⟩ := consistent.idle.owned id row before
      exact ⟨user,users _ _ known⟩
    | inr added =>
      obtain ⟨user,known,-⟩ := added
      exact ⟨user,known⟩
  · cases sessions id row held with
    | inl before =>
      obtain ⟨user,known⟩ := consistent.idle.owned id row before
      rw [same known]
      exact consistent.idle.revoked id row before unrevoked
    | inr added =>
      obtain ⟨user,known,active⟩ := added
      unfold Identity.suspended
      rw [known,Option.any_some,active]
      rfl
  · have standing := consistent.suspended user_id since gone
    cases known : d.users.get? user_id with
    | none => simp [Identity.suspended,known] at standing
    | some user => rwa [same known]
  · cases tokens id row held with
    | inl before => exact consistent.tokenless user_id since id row gone before owner
    | inr added =>
      rw [added user_id owner] at gone
      contradiction

/-- An operation on one user, after which that user is suspended and without live API tokens if now deprovisioned. -/
theorem Consistent.touch {deprovisioned' : Dict String Nat} (consistent : Consistent d deprovisioned now) (touches : Touches d d' user_id)
    (others : ∀ other, other ≠ user_id → deprovisioned'.get? other = deprovisioned.get? other)
    (gone : ∀ since, deprovisioned'.get? user_id = some since → Identity.suspended d' user_id = true ∧
      ∀ id row, d'.api_tokens.get? id = some row → row.user_id = some user_id → row.live now = false) : Consistent d' deprovisioned' now := by
  refine ⟨touches.idle consistent.idle,fun other since held => ?_,fun other since id row' held found owner => ?_⟩
  · by_cases same : other = user_id
    · rw [same] at held ⊢
      exact (gone since held).1
    · rw [others other same] at held
      rw [touches.suspended_other same]
      exact consistent.suspended other since held
  · by_cases same : other = user_id
    · rw [same] at held owner
      exact (gone since held).2 id row' found owner
    · rw [others other same] at held
      exact touches.tokenless (fun id row before owner => consistent.tokenless other since id row held before owner) id row' found owner

theorem Consistent.keep (consistent : Consistent d deprovisioned now) (touches : Touches d d' user_id)
    (standing : Identity.suspended d' user_id = Identity.suspended d user_id) : Consistent d' deprovisioned now :=
  consistent.touch touches (fun _ _ => rfl) fun since gone => by
    refine ⟨standing.trans (consistent.suspended user_id since gone),touches.tokenless fun id row held owner => ?_⟩
    exact consistent.tokenless user_id since id row gone held owner

theorem Consistent.add_user (consistent : Consistent d deprovisioned now) {uuid : Directory → String} {user : User}
    (done : add_user uuid d user = some d') : Consistent d' deprovisioned now := by
  unfold Identity.add_user at done
  split at done
  · contradiction
  · rename_i free
    rw [checked_some done]
    refine consistent.grow (fun other row known => ?_) (fun id row held => Or.inl held) fun id row held => Or.inl held
    rw [Dict.get?_set_other]
    · exact known
    · intro same
      exact free ((Dict.contains_iff _ _).mpr ⟨row,same ▸ known⟩)

theorem Consistent.create_user (consistent : Consistent d deprovisioned now) {uuid : Directory → String} {tenant_id username : String}
    {email : Option String} (done : create_user uuid d tenant_id username email = some d') : Consistent d' deprovisioned now := by
  unfold Identity.create_user at done
  split at done
  · contradiction
  · exact consistent.add_user done

theorem Consistent.scim_create_user (consistent : Consistent d deprovisioned now) {uuid : Directory → String} {tenant_id : String}
    {body : List (String × JsonValue)} (done : scim_create_user uuid d tenant_id body = some d') : Consistent d' deprovisioned now := by
  unfold Identity.scim_create_user at done
  split at done
  · split at done
    · contradiction
    · exact consistent.add_user done
  · contradiction

theorem revoke_sessions_touches (d : Directory) (user_id : String) (now : Nat) : Touches d (revoke_sessions d user_id now) user_id where
  others _ _ := rfl
  kept user known := ⟨user,known⟩
  tokens _ row held := ⟨row,held,rfl,fun _ live => live⟩
  idle idle := by
    constructor
    · intro id row' held
      obtain ⟨row,before,owner,-⟩ := revoked_session held
      rw [← owner]
      exact idle.owned id row before
    · intro id row' held unrevoked
      obtain ⟨row,before,owner,spared⟩ := revoked_session held
      rw [← owner]
      exact idle.revoked id row before (spared unrevoked).1

theorem Consistent.saml_sls (consistent : Consistent d deprovisioned now) {name_id : String} {at_time : Nat}
    (done : saml_sls d name_id at_time = some d') : Consistent d' deprovisioned now := by
  unfold Identity.saml_sls at done
  split at done
  · rename_i identity found
    cases done
    exact consistent.keep (revoke_sessions_touches d identity.user_id at_time) rfl
  · contradiction

theorem Consistent.revoke_api_token (consistent : Consistent d deprovisioned now) {tenant_id token_id : String} {at_time : Nat}
    (done : revoke_api_token d tenant_id token_id at_time = some d') : Consistent d' deprovisioned now := by
  -- it touches no user, so any will do
  let user_id := token_id
  rw [Identity.revoke_api_token,Option.map_eq_some_iff] at done
  obtain ⟨row,found,rfl⟩ := done
  rw [Option.filter_eq_some_iff] at found
  split
  · have touches : Touches d {d with api_tokens := d.api_tokens.set token_id {row with revoked_at := some at_time}} user_id := by
      refine ⟨fun _ _ => rfl,fun user known => ⟨user,known⟩,fun id row' held => ?_,fun idle => ⟨idle.owned,idle.revoked⟩⟩
      rw [Dict.get?_set] at held
      split at held
      · rename_i same
        cases held
        exact ⟨row,same ▸ found.1,rfl,fun t live => by simp [ApiToken.live] at live⟩
      · exact ⟨row',held,rfl,fun _ live => live⟩
    exact consistent.keep touches rfl
  · exact consistent

theorem Consistent.create_api_token (consistent : Consistent d deprovisioned now) {day : Nat} {minter : Option Principal}
    {body : TokenRequest} {at_time : Nat}
    (allowed : ∀ principal user_id, minter = some principal → principal.user_id = some user_id → deprovisioned.get? user_id = none)
    (done : create_api_token day d minter body at_time = some d') : Consistent d' deprovisioned now := by
  unfold Identity.create_api_token at done
  split at done
  · contradiction
  · cases done
    refine consistent.grow (fun _ _ known => known) (fun _ _ held => Or.inl held) fun id row held => ?_
    rw [Dict.get?_set] at held
    split at held
    · cases held
      refine Or.inr fun user_id owner => ?_
      obtain ⟨principal,minted,owner⟩ := Option.bind_eq_some_iff.mp owner
      exact allowed principal user_id minted owner
    · exact Or.inl held

theorem Consistent.login (consistent : Consistent d deprovisioned now) (login : Login) : Consistent (log_in d login) deprovisioned now := by
  unfold log_in
  split
  · rename_i done logged_in
    obtain ⟨users,api_tokens,-,user,id,known,active,-,sessions⟩ := sso_login_ok logged_in
    refine consistent.grow users.kept (fun other row held => ?_) fun other row held => Or.inl (api_tokens ▸ held)
    rw [sessions,Dict.get?_set] at held
    split at held
    · cases held
      exact Or.inr ⟨user,known,active⟩
    · exact Or.inl held
  · exact consistent

theorem look_up_token_user {token_hash : String} (found : look_up_token d now token_hash = some principal)
    (owner : principal.user_id = some user_id) : ∃ id row, d.api_tokens.get? id = some row ∧ row.user_id = some user_id ∧
      row.live now = true := by
  unfold look_up_token token_row at found
  rw [Option.bind_eq_some_iff] at found
  obtain ⟨entry,held,found⟩ := found
  split at found
  · rename_i live
    cases found
    exact ⟨entry.1,entry.2,(Dict.mem_entries _ _ _).mp (List.mem_of_find?_eq_some held),owner,live⟩
  · contradiction

theorem look_up_session_user {token_hash : String} (found : look_up_session d now token_hash = some principal)
    (owner : principal.user_id = some user_id) : ∃ id row, d.sessions.get? id = some row ∧ row.user_id = user_id ∧
      row.revoked_at = none := by
  unfold look_up_session session_row at found
  rw [Option.bind_eq_some_iff] at found
  obtain ⟨entry,held,found⟩ := found
  split at found
  · rename_i live
    rw [Option.map_eq_some_iff] at found
    obtain ⟨user,-,rfl⟩ := found
    rw [Session.live,Bool.and_eq_true,Option.isNone_iff_eq_none] at live
    exact ⟨entry.1,entry.2,(Dict.mem_entries _ _ _).mp (List.mem_of_find?_eq_some held),Option.some.inj owner,live.1⟩
  · contradiction

/-- The tables give no principal for a deprovisioned user. -/
theorem Consistent.spent (consistent : Consistent d deprovisioned now) {since : Nat} {token_hash : String}
    (gone : deprovisioned.get? user_id = some since)
    (found : look_up_token d now token_hash = some principal ∨ look_up_session d now token_hash = some principal) :
    principal.user_id ≠ some user_id := by
  intro owner
  cases found with
  | inl found =>
    obtain ⟨id,row,held,owned,live⟩ := look_up_token_user found owner
    rw [consistent.tokenless user_id since id row gone held owned] at live
    contradiction
  | inr found =>
    obtain ⟨id,row,held,rfl,unrevoked⟩ := look_up_session_user found owner
    have standing := consistent.idle.revoked id row held unrevoked
    rw [consistent.suspended row.user_id since gone] at standing
    contradiction

end

/-- A resolution puts at most what it resolved to, to live for the TTL. -/
theorem get?_resolve_same {limits : CacheLimits} {cache : Cache} {now : Nat} {key : String} {resolved : Option Principal}
    {entry : Nat × Option Principal} (held : (resolve limits cache now key resolved).2.get? key = some entry) :
    cache.get? key = some entry ∨ entry = (now + limits.ttl,resolved) := by
  have put (cache : Cache) (held : (_cache_put limits cache now key resolved).get? key = some entry) :
      entry = (now + limits.ttl,resolved) := by
    unfold _cache_put at held
    dsimp only at held
    rw [Dict.get?_set_same] at held
    exact (Option.some.inj held).symm
  unfold resolve _cache_get at held
  cases found : cache.get? key with
  | none =>
    rw [found] at held
    exact Or.inr (put _ held)
  | some old =>
    rw [found] at held
    by_cases expired : now ≥ old.1
    · simp only [expired,if_true] at held
      exact Or.inr (put _ held)
    · simp only [expired,if_false] at held
      exact Or.inl (found ▸ held)

theorem Bounded.resolve {limits : CacheLimits} {cache : Cache} {deprovisioned : Dict String Nat} {now : Nat} {key : String}
    {resolved : Option Principal} (bounded : Bounded limits.ttl cache deprovisioned now)
    (spent : ∀ principal user_id since, resolved = some principal → deprovisioned.get? user_id = some since →
      principal.user_id ≠ some user_id) : Bounded limits.ttl (resolve limits cache now key resolved).2 deprovisioned now := by
  have source {other : String} {entry : Nat × Option Principal} (held : (Identity.resolve limits cache now key resolved).2.get? other = some entry) :
      cache.get? other = some entry ∨ entry = (now + limits.ttl,resolved) := by
    by_cases same : other = key
    · rw [same] at held ⊢
      exact get?_resolve_same held
    · exact Or.inl (get?_resolve limits cache now key other resolved same entry held)
  constructor
  · intro other entry held
    cases source held with
    | inl before => exact bounded.fresh other entry before
    | inr added => rw [added]
  · intro other expires_at principal user_id since held owner gone
    cases source held with
    | inl before => exact bounded.stale other expires_at principal user_id since before owner gone
    | inr added => exact absurd owner (spent principal user_id since (Prod.mk.inj added).2.symm gone)

theorem Bounded.require_token {limits : CacheLimits} {d : Directory} {cache : Cache} {deprovisioned : Dict String Nat} {now : Nat}
    {token_hash : String} (consistent : Consistent d deprovisioned now) (bounded : Bounded limits.ttl cache deprovisioned now) :
    Bounded limits.ttl (require_token limits d cache now token_hash).2 deprovisioned now := by
  have first : Bounded limits.ttl (resolve_db_token limits d cache now token_hash).2 deprovisioned now :=
    bounded.resolve fun principal user_id since found gone => consistent.spent gone (Or.inl found)
  unfold Identity.require_token
  cases found : resolve_db_token limits d cache now token_hash with
  | mk principal next =>
    rw [found] at first
    cases principal with
    | some principal => exact first
    | none => exact first.resolve fun principal user_id since found gone => consistent.spent gone (Or.inr found)

theorem asked_other (s : Accounts) {user_id other : String} (flag : Option JsonValue) (differ : other ≠ user_id) :
    (s.asked user_id flag).get? other = s.deprovisioned.get? other := by
  unfold Accounts.asked
  cases flag with
  | none => rfl
  | some value =>
    dsimp only
    split
    · split
      · rfl
      · exact Dict.get?_set_other _ _ _ _ differ
    · rw [Dict.get?_erase,if_neg differ]

/-- A user whom the flag leaves deprovisioned was so before, or is from now on. -/
theorem asked_same {s : Accounts} {user_id : String} {flag : Option JsonValue} {since : Nat}
    (gone : (s.asked user_id flag).get? user_id = some since) :
    (s.deprovisioned.get? user_id = some since ∨ since = s.now) ∧
      (flag = none ∧ s.deprovisioned.get? user_id = some since ∨ ∃ value, flag = some value ∧ means_inactive value = true) := by
  unfold Accounts.asked at gone
  cases flag with
  | none => exact ⟨Or.inl gone,Or.inl ⟨rfl,gone⟩⟩
  | some value =>
    dsimp only at gone
    split at gone
    · rename_i inactive
      refine ⟨?_,Or.inr ⟨value,rfl,inactive⟩⟩
      split at gone
      · exact Or.inl gone
      · rw [Dict.get?_set_same] at gone
        exact Or.inr (Option.some.inj gone).symm
    · rw [Dict.get?_erase,if_pos rfl] at gone
      contradiction

theorem Bounded.asked {ttl : Nat} {s : Accounts} (bounded : Bounded ttl s.cache s.deprovisioned s.now) (user_id : String)
    (flag : Option JsonValue) : Bounded ttl s.cache (s.asked user_id flag) s.now where
  fresh := bounded.fresh
  stale key expires_at principal other since held owner gone := by
    by_cases same : other = user_id
    · rw [same] at gone owner
      cases (asked_same gone).1 with
      | inl before => exact bounded.stale key expires_at principal user_id since held owner before
      | inr now =>
        rw [now]
        exact bounded.fresh key _ held
    · rw [asked_other s flag same] at gone
      exact bounded.stale key expires_at principal other since held owner gone

namespace Service
variable {service : Service} {s : Accounts}

structure Sound (service : Service) (s : Accounts) : Prop where
  consistent : Consistent s.directory s.deprovisioned s.now
  bounded : Bounded service.limits.ttl s.cache s.deprovisioned s.now

theorem Sound.gone (sound : Sound service s) : service.Gone s := by
  intro user_id since token_hash principal gone passed resolves owner
  have cached {key : String} {resolved : Option Principal} (answer : (resolve service.limits s.cache s.now key resolved).1 = some principal)
      (spent : resolved = some principal → principal.user_id ≠ some user_id) : False := by
    cases resolve_cases service.limits s.cache s.now key resolved with
    | inl looked_up => exact spent (looked_up.symm.trans answer) owner
    | inr entry =>
      obtain ⟨expires_at,found,held,alive,same⟩ := entry
      rw [same] at answer
      have old := sound.bounded.stale key expires_at principal user_id since (answer ▸ held) owner gone
      omega
  cases resolves with
  | inl token => exact cached token fun found => sound.consistent.spent gone (Or.inl found)
  | inr session => exact cached session fun found => sound.consistent.spent gone (Or.inr found)

theorem Sound.write (sound : Sound service s) {after : Option Directory}
    (kept : ∀ d', after = some d' → Consistent d' s.deprovisioned s.now) : Sound service (s.write after) := by
  cases after with
  | none => exact sound
  | some d' => exact ⟨kept d' rfl,sound.bounded⟩

theorem Sound.activate (sound : Sound service s) {user_id : String} {flag : Option JsonValue} {after : Option Directory}
    (done : ∀ d', after = some d' → Touches s.directory d' user_id ∧
      suspended d' user_id = flag.elim (suspended s.directory user_id) fun flag => !truthy flag)
    (fits : ∀ d' value, after = some d' → flag = some value → means_inactive value = true → truthy value = false ∧
      ∀ id row, d'.api_tokens.get? id = some row → row.user_id = some user_id → row.live s.now = false) :
    Sound service (s.activate user_id flag after) := by
  cases after with
  | none => exact sound
  | some d' =>
    obtain ⟨touches,standing⟩ := done d' rfl
    refine ⟨sound.consistent.touch touches (fun other differ => asked_other s flag differ) fun since gone => ?_,
      sound.bounded.asked user_id flag⟩
    cases (asked_same gone).2 with
    | inl before =>
      obtain ⟨rfl,before⟩ := before
      refine ⟨standing.trans (sound.consistent.suspended user_id since before),touches.tokenless fun id row held owner => ?_⟩
      exact sound.consistent.tokenless user_id since id row before held owner
    | inr inactive =>
      obtain ⟨value,rfl,inactive⟩ := inactive
      obtain ⟨falsy,dead⟩ := fits d' value rfl rfl inactive
      refine ⟨standing.trans ?_,dead⟩
      rw [Option.elim_some,falsy]
      rfl

theorem Sound.caller (sound : Sound service s) (bearer : Option String) :
    Bounded service.limits.ttl (service.caller s bearer).2 s.deprovisioned s.now := by
  cases bearer with
  | none => exact sound.bounded
  | some token_hash => exact sound.bounded.require_token sound.consistent

theorem Sound.mint (sound : Sound service s) {bearer : Option String} {body : TokenRequest}
    (fits : service.Fits s (.create_api_token bearer body)) : Sound service (service.mint s bearer body) := by
  have called : Sound service {s with cache := (service.caller s bearer).2} := ⟨sound.consistent,sound.caller bearer⟩
  unfold Service.mint
  dsimp only
  split
  · rename_i allowed
    exact called.write fun d' done => sound.consistent.create_api_token (fits allowed) done
  · exact called

theorem Sound.step (sound : Sound service s) {operation : Operation} (fits : service.Fits s operation) :
    Sound service (service.step s operation) := by
  have flagged {user_id : String} {flag value : JsonValue} {d' : Directory} (touches : Touches s.directory d' user_id)
      (deactivates : Deactivates s user_id flag) (same : some flag = some value) (inactive : means_inactive value = true) :
      truthy value = false ∧ ∀ id row, d'.api_tokens.get? id = some row → row.user_id = some user_id → row.live s.now = false := by
    cases same
    obtain ⟨falsy,tokenless⟩ := deactivates inactive
    exact ⟨falsy,touches.tokenless tokenless⟩
  cases operation with
  | tick n =>
    refine ⟨sound.consistent.later n,fun key entry held => ?_,sound.bounded.stale⟩
    have before := sound.bounded.fresh key entry held
    have after : (service.step s (.tick n)).now = s.now + n := rfl
    omega
  | request token_hash => exact ⟨sound.consistent,sound.bounded.require_token sound.consistent⟩
  | login login => exact ⟨sound.consistent.login login,sound.bounded⟩
  | create_api_token bearer body => exact sound.mint fits
  | revoke_api_token tenant_id token_id => exact sound.write fun d' done => sound.consistent.revoke_api_token done
  | saml_sls name_id => exact sound.write fun d' done => sound.consistent.saml_sls done
  | create_user uuid tenant_id username email => exact sound.write fun d' done => sound.consistent.create_user done
  | suspend_user tenant_id user_id =>
    refine sound.activate (fun d' done => ?_) fun d' value done same _ => ?_
    · obtain ⟨touches,standing,-⟩ := suspend_user_ok done
      exact ⟨touches,standing⟩
    · cases same
      obtain ⟨-,-,dead⟩ := suspend_user_ok done
      exact ⟨rfl,fun id row held owner => dead id row held owner s.now⟩
  | scim_create uuid tenant_id body => exact sound.write fun d' done => sound.consistent.scim_create_user done
  | scim_replace tenant_id user_id body =>
    refine sound.activate (fun d' done => scim_replace_user_ok done) fun d' value done same inactive => ?_
    exact flagged (scim_replace_user_ok done).1 (fits (by simp [done])) same inactive
  | scim_patch tenant_id user_id operations =>
    refine sound.activate (fun d' done => scim_patch_user_ok done) fun d' value done asked inactive => ?_
    exact flagged (scim_patch_user_ok done).1 (fits (by simp [done]) value asked) rfl inactive
  | scim_delete tenant_id user_id =>
    refine sound.activate (fun d' done => scim_delete_user_ok done) fun d' value done same inactive => ?_
    exact flagged (scim_delete_user_ok done).1 (fits (by simp [done])) same inactive
  | administer groups members roles bindings =>
    have consistent : Consistent (service.step s (.administer groups members roles bindings)).directory s.deprovisioned s.now :=
      sound.consistent.grow (fun _ _ known => known) (fun _ _ held => Or.inl held) fun _ _ held => Or.inl held
    exact ⟨consistent,sound.bounded⟩

end Service

/-- No credential has been issued yet. -/
def Directory.fresh (d : Directory) : Accounts where
  directory := {d with api_tokens := ∅, sessions := ∅}
  cache := ∅
  now := 0
  deprovisioned := ∅

theorem fresh_sound (service : Service) (d : Directory) : service.Sound d.fresh := by
  have none_held {α : Type} {key : String} {value : α} (held : (∅ : Dict String α).get? key = some value) : False := by
    rw [Dict.get?_emptyc] at held
    contradiction
  refine ⟨⟨⟨fun _ _ held => ?_,fun _ _ held => ?_⟩,fun _ _ gone => ?_,fun _ _ _ _ gone => ?_⟩,⟨fun _ _ held => ?_,fun _ _ _ _ _ held => ?_⟩⟩
  · exact (none_held held).elim
  · exact (none_held held).elim
  · exact (none_held gone).elim
  · exact (none_held gone).elim
  · exact (none_held held).elim
  · exact (none_held held).elim

/-- In every run whose SCIM deactivations come with a false flag to users without API tokens, and in which nothing is minted
in the name of a deprovisioned user, deprovisioning is complete in every state. -/
theorem Service.deprovisioning_complete (service : Service) (d : Directory) (operations : List Operation)
    (fits : Runs.Every service.step service.Fits d.fresh operations) : Runs.Always service.step service.Gone d.fresh operations :=
  Runs.always_of (fun _ _ sound fits => sound.step fits) (fun _ sound => sound.gone) (fresh_sound service d) fits

/-- A user who may mint tokens. -/
def minting : Directory where
  users := Dict.ofList [("u1",⟨"t","ada",none,.active⟩)]
  identities := [⟨"u1","idp","ada"⟩]
  groups := ∅
  group_members := []
  roles := Dict.ofList [("r1",⟨some "t","minter",["token:write"]⟩)]
  role_bindings := Dict.ofList [("b1",⟨"t",.user,"u1","r1",.tenant,none⟩)]
  api_tokens := ∅
  sessions := ∅

def thirty_seconds : Service := ⟨⟨30,1024⟩,true,86400⟩

theorem deprovisioning_complete_patch : Runs.Always thirty_seconds.step thirty_seconds.Gone minting.fresh
    [.login no_groups,.scim_patch "t" "u1" [⟨some "active",.boolean false⟩],.tick 30] := by
  apply thirty_seconds.deprovisioning_complete
  refine Runs.every_cons.mpr ⟨trivial,Runs.every_cons.mpr ⟨fun _ flag asked _ => ?_,Runs.every_cons.mpr ⟨trivial,Runs.every_nil⟩⟩⟩
  have boolean : flag = .boolean false := Option.some.inj (asked.symm.trans rfl)
  refine ⟨by rw [boolean]; rfl,fun id row held _ => ?_⟩
  have none_held : (∅ : Dict String ApiToken).get? id = some row := held
  rw [Dict.get?_emptyc] at none_held
  contradiction

/-- The API token of a user whom SCIM has deleted still resolves. -/
theorem deleted_user_resolves : ¬Runs.Always thirty_seconds.step thirty_seconds.Gone minting.fresh [.login no_groups,
    .create_api_token (some "h1") ⟨fun _ => "k1","ci",none,none,"h2"⟩,.scim_delete "t" "u1",.tick 30] := by
  intro always
  let s := [Operation.login no_groups,.create_api_token (some "h1") ⟨fun _ => "k1","ci",none,none,"h2"⟩,.scim_delete "t" "u1",
    .tick 30].foldl thirty_seconds.step minting.fresh
  have gone : s.deprovisioned.get? "u1" = some 0 := by decide +kernel
  have resolves : ((resolve_db_token thirty_seconds.limits s.directory s.cache s.now "h2").1.bind Principal.user_id) = some "u1" := by
    decide +kernel
  obtain ⟨principal,found,owner⟩ := Option.bind_eq_some_iff.mp resolves
  exact always _ [] (List.append_nil _).symm "u1" 0 "h2" principal gone (by decide +kernel) (Or.inl found) owner

end AetherVault.Identity
