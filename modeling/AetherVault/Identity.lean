import AetherVault.Lib.Dict
import Mathlib.Data.List.Dedup
import Mathlib.Data.String.Basic

/-! `identity.py`: the tables of users, groups, roles and credentials, the permissions that role bindings give a
subject, and the principal that a bearer token resolves to, through the cache. -/
namespace AetherVault.Identity
open Lib

inductive SubjectType
  | user
  | group
  | token
  deriving DecidableEq

inductive ScopeType
  | tenant
  | project
  deriving DecidableEq

inductive UserStatus
  | active
  | suspended
  deriving DecidableEq

structure User where
  tenant_id : String
  username : String
  email : Option String
  status : UserStatus
  deriving DecidableEq

structure UserIdentity where
  user_id : String
  provider_id : String
  subject : String
  deriving DecidableEq

structure Group where
  tenant_id : String
  name : String
  deriving DecidableEq

structure Role where
  tenant_id : Option String
  name : String
  permissions : List String
  deriving DecidableEq

structure RoleBinding where
  tenant_id : String
  subject_type : SubjectType
  subject_id : String
  role_id : String
  scope_type : ScopeType
  scope_id : Option String
  deriving DecidableEq

/-- Times are counted in one unit from a common start. -/
structure ApiToken where
  tenant_id : String
  user_id : Option String
  name : String
  token_hash : String
  scopes : Option (List String)
  expires_at : Option Nat
  revoked_at : Option Nat
  deriving DecidableEq

structure Session where
  user_id : String
  tenant_id : String
  token_hash : String
  expires_at : Nat
  revoked_at : Option Nat
  deriving DecidableEq

/-- The tables, by primary key. -/
structure Directory where
  users : Dict String User
  identities : List UserIdentity
  groups : Dict String Group
  group_members : List (String × String)
  roles : Dict String Role
  role_bindings : Dict String RoleBinding
  api_tokens : Dict String ApiToken
  sessions : Dict String Session

inductive AuthMethod
  | anonymous
  | env_token
  | db_token
  | session
  deriving DecidableEq

structure Principal where
  username : String
  tenant_id : Option String
  auth_method : AuthMethod
  scopes : List String
  role_names : List String
  user_id : Option String
  deriving DecidableEq

/-- `sorted(set(xs))`. -/
def sorted_set (xs : List String) : List String := xs.dedup.mergeSort (· ≤ ·)

@[simp] theorem mem_sorted_set (xs : List String) (x : String) : x ∈ sorted_set xs ↔ x ∈ xs := by
  rw [sorted_set,List.mem_mergeSort,List.mem_dedup]

/-- The bindings whose roles count: `scope_type` and `scope_id` are not looked at. -/
def bound (d : Directory) (tenant_id : String) (subject_type : SubjectType) (subject_id : String) (b : RoleBinding) : Bool :=
  b.tenant_id = tenant_id && match subject_type with
    | .user => b.subject_type = .user && b.subject_id = subject_id ||
        b.subject_type = .group && d.group_members.contains (b.subject_id,subject_id)
    | other => b.subject_type = other && b.subject_id = subject_id

def bound_roles (d : Directory) (tenant_id : String) (subject_type : SubjectType) (subject_id : String) : List Role :=
  (d.role_bindings.entries.filter fun entry => bound d tenant_id subject_type subject_id entry.2).filterMap fun entry =>
    d.roles.get? entry.2.role_id

def _permissions_for_subject (d : Directory) (tenant_id : String) (subject_type : SubjectType) (subject_id : String) :
    List String × List String :=
  let rows := bound_roles d tenant_id subject_type subject_id
  (sorted_set (rows.flatMap Role.permissions),rows.map Role.name)

/-- `scopes or ["read"]`. -/
def or_read : List String → List String
  | [] => ["read"]
  | scopes => scopes

/-- What a token's own list leaves of the scopes of its roles; an empty list counts as none. -/
def restrict (scopes : Option (List String)) (role_scopes : List String) : List String :=
  match scopes with
  | none => role_scopes
  | some [] => role_scopes
  | some listed => sorted_set (listed.filter fun x => x ∈ role_scopes)

theorem restrict_cons (first : String) (rest role_scopes : List String) :
    restrict (some (first::rest)) role_scopes = sorted_set ((first::rest).filter fun x => x ∈ role_scopes) := rfl

def ApiToken.subject (row : ApiToken) (id : String) : SubjectType × String :=
  match row.user_id with
  | some user_id => (.user,user_id)
  | none => (.token,id)

def ApiToken.live (row : ApiToken) (now : Nat) : Bool :=
  row.revoked_at.isNone && row.expires_at.all fun expires_at => now < expires_at

def Session.live (row : Session) (now : Nat) : Bool := row.revoked_at.isNone && now < row.expires_at

def token_principal (d : Directory) (id : String) (row : ApiToken) : Principal :=
  let subject := row.subject id
  let granted := _permissions_for_subject d row.tenant_id subject.1 subject.2
  let username := row.user_id.bind fun user_id => (d.users.get? user_id).map User.username
  {username := (username.filter (· ≠ "")).getD ("token:" ++ row.name)
   tenant_id := some row.tenant_id
   auth_method := .db_token
   scopes := or_read (restrict row.scopes granted.1)
   role_names := granted.2
   user_id := row.user_id}

def session_principal (d : Directory) (row : Session) (username : String) : Principal :=
  let granted := _permissions_for_subject d row.tenant_id .user row.user_id
  {username := username
   tenant_id := some row.tenant_id
   auth_method := .session
   scopes := or_read granted.1
   role_names := granted.2
   user_id := some row.user_id}

def token_row (d : Directory) (token_hash : String) : Option (String × ApiToken) :=
  d.api_tokens.entries.find? fun entry => entry.2.token_hash = token_hash

def session_row (d : Directory) (token_hash : String) : Option (String × Session) :=
  d.sessions.entries.find? fun entry => entry.2.token_hash = token_hash

/-- `resolve_db_token` and `resolve_session` past the cache. -/
def look_up_token (d : Directory) (now : Nat) (token_hash : String) : Option Principal :=
  (token_row d token_hash).bind fun found => if found.2.live now then some (token_principal d found.1 found.2) else none

def look_up_session (d : Directory) (now : Nat) (token_hash : String) : Option Principal :=
  (session_row d token_hash).bind fun found =>
    if found.2.live now then (d.users.get? found.2.user_id).map fun user => session_principal d found.2 user.username else none

/-! The cache, by token hash; `None` is cached too. -/

abbrev Cache := Dict String (Nat × Option Principal)

structure CacheLimits where
  ttl : Nat
  max_entries : Nat

def _cache_get (cache : Cache) (now : Nat) (key : String) : Option (Option Principal) × Cache :=
  match cache.get? key with
  | none => (none,cache)
  | some entry => if now ≥ entry.1 then (none,cache.erase key) else (some entry.2,cache)

def erase_all (cache : Cache) (keys : List String) : Cache := keys.foldl (fun cache key => cache.erase key) cache

/-- At the cap the expired entries go first, then those that expire soonest. -/
def make_room (limits : CacheLimits) (cache : Cache) (now : Nat) : Cache :=
  let alive := cache.filter fun _ entry => now < entry.1
  let overflow := alive.entries.length + 1 - limits.max_entries
  erase_all alive (((alive.entries.mergeSort fun a b => a.2.1 ≤ b.2.1).take overflow).map Prod.fst)

def _cache_put (limits : CacheLimits) (cache : Cache) (now : Nat) (key : String) (principal : Option Principal) : Cache :=
  let cache := if !cache.contains key && cache.entries.length ≥ limits.max_entries then make_room limits cache now else cache
  cache.set key (now + limits.ttl,principal)

def resolve (limits : CacheLimits) (cache : Cache) (now : Nat) (key : String) (resolved : Option Principal) :
    Option Principal × Cache :=
  match _cache_get cache now key with
  | (some principal,cache) => (principal,cache)
  | (none,cache) => (resolved,_cache_put limits cache now key resolved)

def resolve_db_token (limits : CacheLimits) (d : Directory) (cache : Cache) (now : Nat) (token_hash : String) :
    Option Principal × Cache := resolve limits cache now token_hash (look_up_token d now token_hash)

def session_key (token_hash : String) : String := "session:" ++ token_hash

def resolve_session (limits : CacheLimits) (d : Directory) (cache : Cache) (now : Nat) (token_hash : String) :
    Option Principal × Cache := resolve limits cache now (session_key token_hash) (look_up_session d now token_hash)

/-- `require_scope`: a request without scopes, or with none in its list, counts as unrestricted. -/
def require_scope (scopes : Option (List String)) (scope : String) : Bool :=
  let scopes := match scopes with
    | none => ["*"]
    | some [] => ["*"]
    | some listed => listed
  scopes.contains "*" || scopes.contains scope

/-- `require_token` for a bearer token that is none of the environment's: the principal of the request, if it has one. -/
def require_token (limits : CacheLimits) (d : Directory) (cache : Cache) (now : Nat) (token_hash : String) :
    Option Principal × Cache :=
  match resolve_db_token limits d cache now token_hash with
  | (some principal,cache) => (some principal,cache)
  | (none,cache) => resolve_session limits d cache now token_hash

/-- Whether a request with the token comes to a route that requires the scope; a token that nothing knows is turned
away in protected mode and counts as none otherwise. -/
def passes (limits : CacheLimits) (protected_mode : Bool) (d : Directory) (cache : Cache) (now : Nat) (token_hash scope : String) :
    Bool :=
  match (require_token limits d cache now token_hash).1 with
  | some principal => require_scope (some principal.scopes) scope
  | none => !protected_mode && require_scope none scope

/-! What a resolution is made from. -/

theorem mem_permissions {d : Directory} {tenant_id : String} {subject_type : SubjectType} {subject_id x : String} :
    x ∈ (_permissions_for_subject d tenant_id subject_type subject_id).1 ↔ ∃ binding_id b role,
      d.role_bindings.get? binding_id = some b ∧ bound d tenant_id subject_type subject_id b = true ∧
        d.roles.get? b.role_id = some role ∧ x ∈ role.permissions := by
  simp only [_permissions_for_subject,mem_sorted_set,List.mem_flatMap,bound_roles,List.mem_filterMap,List.mem_filter]
  constructor
  · intro found
    obtain ⟨role,⟨entry,⟨member,counts⟩,has_role⟩,permits⟩ := found
    exact ⟨entry.1,entry.2,role,(Dict.mem_entries _ _ _).mp member,counts,has_role,permits⟩
  · intro found
    obtain ⟨binding_id,b,role,held,counts,has_role,permits⟩ := found
    exact ⟨role,⟨(binding_id,b),⟨(Dict.mem_entries _ _ _).mpr held,counts⟩,has_role⟩,permits⟩

/-- A cache entry that is still alive is answered as it was put. -/
theorem resolve_cases (limits : CacheLimits) (cache : Cache) (now : Nat) (key : String) (resolved : Option Principal) :
    (resolve limits cache now key resolved).1 = resolved ∨
      ∃ expires_at principal, cache.get? key = some (expires_at,principal) ∧ now < expires_at ∧
        (resolve limits cache now key resolved).1 = principal := by
  unfold resolve _cache_get
  cases held : cache.get? key with
  | none => exact Or.inl rfl
  | some entry =>
    by_cases expired : now ≥ entry.1
    · simp [expired]
    · exact Or.inr ⟨entry.1,entry.2,rfl,by omega,by simp [expired]⟩

theorem get?_erase_all (cache : Cache) (keys : List String) (key : String) (entry : Nat × Option Principal)
    (held : (erase_all cache keys).get? key = some entry) : cache.get? key = some entry := by
  induction keys generalizing cache with
  | nil => exact held
  | cons first rest ih =>
    have before := ih (cache.erase first) held
    rw [Dict.get?_erase] at before
    split at before
    · contradiction
    · exact before

/-- Putting an entry adds nothing under another key. -/
theorem get?_cache_put (limits : CacheLimits) (cache : Cache) (now : Nat) (key other : String) (principal : Option Principal)
    (differ : other ≠ key) (entry : Nat × Option Principal)
    (held : (_cache_put limits cache now key principal).get? other = some entry) : cache.get? other = some entry := by
  unfold _cache_put at held
  dsimp only at held
  rw [Dict.get?_set_other _ _ _ _ differ] at held
  split at held
  · have kept := get?_erase_all _ _ _ _ held
    rw [Dict.get?_filter,Option.filter_eq_some_iff] at kept
    exact kept.1
  · exact held

/-- A resolution leaves nothing new under another key. -/
theorem get?_resolve (limits : CacheLimits) (cache : Cache) (now : Nat) (key other : String) (resolved : Option Principal)
    (differ : other ≠ key) (entry : Nat × Option Principal)
    (held : (resolve limits cache now key resolved).2.get? other = some entry) : cache.get? other = some entry := by
  unfold resolve _cache_get at held
  cases found : cache.get? key with
  | none =>
    rw [found] at held
    exact get?_cache_put limits cache now key other resolved differ entry held
  | some old =>
    rw [found] at held
    by_cases expired : now ≥ old.1
    · simp only [expired,if_true] at held
      have kept := get?_cache_put limits _ now key other resolved differ entry held
      rwa [Dict.get?_erase,if_neg differ] at kept
    · simpa only [expired,if_false] using held

theorem session_key_differs (token_hash : String) : session_key token_hash ≠ token_hash := by
  intro same
  have sizes := congrArg String.length same
  simp only [session_key,String.length_append] at sizes
  have eight : "session:".length = 8 := rfl
  omega

end AetherVault.Identity
