import AetherVault.Identity

/-! What a bearer token lets through: the permissions of the roles bound to its subject against the token's own list,
and role bindings that are for one project. -/
namespace AetherVault.Identity
open Lib

/-- A live row that a bearer token stands for. -/
inductive Credential
  | token (id : String) (row : ApiToken)
  | session (row : Session) (username : String)
  deriving DecidableEq

namespace Credential

def principal (d : Directory) : Credential → Principal
  | .token id row => token_principal d id row
  | .session row username => session_principal d row username

def tenant_id : Credential → String
  | .token _ row => row.tenant_id
  | .session row _ => row.tenant_id

def subject : Credential → SubjectType × String
  | .token id row => row.subject id
  | .session row _ => (.user,row.user_id)

/-- The list that the token itself carries. -/
def listed : Credential → Option (List String)
  | .token _ row => row.scopes
  | .session _ _ => none

/-- The union of the permissions of the roles that count. -/
def permissions (d : Directory) (cred : Credential) : List String :=
  (_permissions_for_subject d cred.tenant_id cred.subject.1 cred.subject.2).1

theorem principal_scopes (d : Directory) (cred : Credential) :
    (cred.principal d).scopes = or_read (restrict cred.listed (cred.permissions d)) := by
  cases cred <;> rfl

end Credential

def credential (d : Directory) (now : Nat) (token_hash : String) : Option Credential :=
  match (token_row d token_hash).filter fun found => found.2.live now with
  | some found => some (.token found.1 found.2)
  | none => ((session_row d token_hash).filter fun found => found.2.live now).bind fun found =>
    (d.users.get? found.2.user_id).map fun user => .session found.2 user.username

/-- What the cache still holds of the token is what the tables say. -/
structure Coherent (d : Directory) (cache : Cache) (now : Nat) (token_hash : String) : Prop where
  token : ∀ expires_at principal, cache.get? token_hash = some (expires_at,principal) → now < expires_at →
    principal = look_up_token d now token_hash
  session : ∀ expires_at principal, cache.get? (session_key token_hash) = some (expires_at,principal) → now < expires_at →
    principal = look_up_session d now token_hash

section Resolution

variable {limits : CacheLimits} {protected_mode : Bool} {d : Directory} {cache : Cache} {now : Nat} {token_hash : String}

theorem coherent_empty : Coherent d ∅ now token_hash :=
  ⟨fun _ _ held _ => by simp at held,fun _ _ held _ => by simp at held⟩

theorem resolve_eq {key : String} {resolved : Option Principal}
    (coherent : ∀ expires_at principal, cache.get? key = some (expires_at,principal) → now < expires_at → principal = resolved) :
    (resolve limits cache now key resolved).1 = resolved := by
  rcases resolve_cases limits cache now key resolved with same | ⟨expires_at,principal,held,alive,answered⟩
  · exact same
  · rw [answered,coherent expires_at principal held alive]

theorem look_up (d : Directory) (now : Nat) (token_hash : String) :
    (look_up_token d now token_hash).or (look_up_session d now token_hash) =
      (credential d now token_hash).map (Credential.principal d) := by
  have session : look_up_session d now token_hash =
      (((session_row d token_hash).filter fun found => found.2.live now).bind fun found =>
        (d.users.get? found.2.user_id).map fun user => Credential.session found.2 user.username).map (Credential.principal d) := by
    unfold look_up_session
    cases session_row d token_hash with
    | none => rfl
    | some found =>
      cases live : found.2.live now with
      | false => simp [live,Option.filter]
      | true =>
        cases known : d.users.get? found.2.user_id with
        | none => simp [live,known,Option.filter]
        | some user => simp [live,known,Option.filter,Credential.principal]
  unfold credential
  rw [session,look_up_token]
  cases token_row d token_hash with
  | none => rfl
  | some found =>
    cases live : found.2.live now with
    | false => simp [live,Option.filter]
    | true => simp [live,Option.filter,Credential.principal]

/-- A request gets the principal of its credential as the tables have it. -/
theorem require_token_eq (coherent : Coherent d cache now token_hash) :
    (require_token limits d cache now token_hash).1 = (credential d now token_hash).map (Credential.principal d) := by
  have first : (resolve_db_token limits d cache now token_hash).1 = look_up_token d now token_hash := resolve_eq coherent.token
  have rest := get?_resolve limits cache now token_hash (session_key token_hash) (look_up_token d now token_hash)
    (session_key_differs token_hash)
  rw [← look_up]
  unfold require_token
  cases answer : resolve_db_token limits d cache now token_hash with
  | mk principal left =>
    rw [answer] at first
    rw [resolve_db_token] at answer
    rw [answer] at rest
    cases principal with
    | some principal => rw [← first,Option.some_or]
    | none =>
      rw [← first,Option.none_or]
      exact resolve_eq fun expires_at principal held alive => coherent.session expires_at principal (rest _ held) alive

end Resolution

/-- A list of scopes allows what it names, and everything by the wildcard. -/
def Allows (scopes : List String) (scope : String) : Prop := scope ∈ scopes ∨ "*" ∈ scopes

theorem require_scope_or_read (scopes : List String) (scope : String) :
    require_scope (some (or_read scopes)) scope = true ↔ Allows scopes scope ∨ scopes = [] ∧ scope = "read" := by
  cases scopes with
  | nil => simp [or_read,require_scope,Allows,eq_comm]
  | cons first rest => simp [or_read,require_scope,Allows,or_comm]

/-- What the roles allow and the token's own list, if it has one, allows too. -/
def Granted (d : Directory) (cred : Credential) (scope : String) : Prop :=
  Allows (cred.permissions d) scope ∧ ∀ listed, cred.listed = some listed → Allows listed scope

/-- One of the two lists allows the scope by its wildcard only, and the other only by its name. -/
def Crossed (d : Directory) (cred : Credential) (scope : String) : Prop :=
  ∃ listed, cred.listed = some listed ∧ Allows listed scope ∧ Allows (cred.permissions d) scope ∧
    ¬Allows (listed.filter fun x => x ∈ cred.permissions d) scope

/-- The list is there but empty and the roles allow the scope; or nothing is left and the scope is the one that stands
for nothing. -/
def Defaulted (d : Directory) (cred : Credential) (scope : String) : Prop :=
  cred.listed = some [] ∧ Allows (cred.permissions d) scope ∨
    restrict cred.listed (cred.permissions d) = [] ∧ scope = "read"

theorem allows_restrict (listed permissions : List String) (scope : String) :
    Allows (sorted_set (listed.filter fun x => x ∈ permissions)) scope ↔ Allows (listed.filter fun x => x ∈ permissions) scope := by
  simp only [Allows,mem_sorted_set]

theorem allows_filter {listed permissions : List String} {scope : String}
    (allows : Allows (listed.filter fun x => x ∈ permissions) scope) : Allows listed scope ∧ Allows permissions scope := by
  simp only [Allows,List.mem_filter,decide_eq_true_eq] at allows
  rcases allows with here | wild
  · exact ⟨Or.inl here.1,Or.inl here.2⟩
  · exact ⟨Or.inr wild.1,Or.inr wild.2⟩

/-- What passes is what is granted, less what is crossed, with what is defaulted. -/
theorem passes_scopes_iff (d : Directory) (cred : Credential) (scope : String) :
    require_scope (some (cred.principal d).scopes) scope = true ↔
      Granted d cred scope ∧ ¬Crossed d cred scope ∨ Defaulted d cred scope := by
  rw [Credential.principal_scopes,require_scope_or_read]
  cases carries : cred.listed with
  | none => simp [Granted,Crossed,Defaulted,carries,restrict]
  | some listed =>
    cases listed with
    | nil => simp [Granted,Crossed,Defaulted,carries,restrict,Allows]
    | cons first rest =>
      have both : Granted d cred scope ∧ ¬Crossed d cred scope ↔
          Allows ((first::rest).filter fun x => x ∈ cred.permissions d) scope := by
        constructor
        · intro granted
          by_contra none
          exact granted.2 ⟨_,carries,granted.1.2 _ carries,granted.1.1,none⟩
        · intro allows
          refine ⟨⟨(allows_filter allows).2,fun other same => ?_⟩,fun crossed => ?_⟩
          · rw [carries] at same
            exact Option.some.inj same ▸ (allows_filter allows).1
          · obtain ⟨other,same,-,-,none⟩ := crossed
            rw [carries] at same
            exact none (Option.some.inj same ▸ allows)
      rw [both,Defaulted,carries,restrict_cons,allows_restrict]
      simp

theorem granted_not_defaulted (d : Directory) (cred : Credential) (scope : String) (granted : Granted d cred scope)
    (straight : ¬Crossed d cred scope) : ¬Defaulted d cred scope := by
  obtain ⟨permits,lists⟩ := granted
  intro defaulted
  rcases defaulted with ⟨empty,-⟩ | ⟨nothing,-⟩
  · have allows := lists [] empty
    simp [Allows] at allows
  · cases carries : cred.listed with
    | none =>
      rw [carries,restrict] at nothing
      simp [nothing,Allows] at permits
    | some listed =>
      apply straight
      refine ⟨listed,carries,lists listed carries,permits,fun allows => ?_⟩
      cases listed with
      | nil => simp [Allows] at allows
      | cons first rest =>
        rw [carries,restrict_cons] at nothing
        have kept := (allows_restrict _ _ _).mpr allows
        simp [nothing,Allows] at kept

theorem crossed_granted (d : Directory) (cred : Credential) (scope : String) (crossed : Crossed d cred scope) : Granted d cred scope := by
  obtain ⟨listed,carries,allows,permits,-⟩ := crossed
  refine ⟨permits,fun other same => ?_⟩
  rw [carries] at same
  exact Option.some.inj same ▸ allows

/-- For every token and all bindings a request passes exactly when roles and list allow the scope, if and only if a
crossing of wildcards and a default fall together or neither is there. -/
theorem token_scopes_iff (limits : CacheLimits) (protected_mode : Bool) (d : Directory) (cache : Cache) (now : Nat)
    (token_hash id : String) (row : ApiToken) (scope : String) (live : credential d now token_hash = some (.token id row))
    (coherent : Coherent d cache now token_hash) :
    ((passes limits protected_mode d cache now token_hash scope = true ↔ Granted d (.token id row) scope) ↔
      (Crossed d (.token id row) scope ↔ Defaulted d (.token id row) scope)) := by
  have resolved : (require_token limits d cache now token_hash).1 = _ := require_token_eq coherent
  rw [live,Option.map_some] at resolved
  rw [passes,resolved]
  dsimp only
  rw [passes_scopes_iff]
  have apart := granted_not_defaulted d (.token id row) scope
  have within := crossed_granted d (.token id row) scope
  by_cases crossed : Crossed d (.token id row) scope
  · have granted := within crossed
    simp [crossed,granted]
  · by_cases granted : Granted d (.token id row) scope
    · have kept := apart granted crossed
      simp [crossed,granted,kept]
    · simp [crossed,granted]

/-- An owner of one project with two tokens, of which one is for provisioning only. -/
def provisioning : Directory where
  users := Dict.ofList [("u1",⟨"t","ada",none,.active⟩)]
  identities := []
  groups := ∅
  group_members := []
  roles := Dict.ofList [("role-owner",⟨none,"owner",["*"]⟩),("role-reviewer",⟨none,"reviewer",["review"]⟩)]
  role_bindings := Dict.ofList [("b1",⟨"t",.user,"u1","role-owner",.project,some "a"⟩)]
  api_tokens := Dict.ofList [("k1",⟨"t",some "u1","sync","h1",some ["scim"],none,none⟩),
    ("k2",⟨"t",some "u1","all","h2",none,none,none⟩)]
  sessions := ∅

def sync_token : ApiToken := ⟨"t",some "u1","sync","h1",some ["scim"],none,none⟩

theorem provisioning_refused : ¬(passes ⟨30,1024⟩ true provisioning ∅ 0 "h1" "scim" = true ↔
    Granted provisioning (.token "k1" sync_token) "scim") := by
  intro same
  have refused : passes ⟨30,1024⟩ true provisioning ∅ 0 "h1" "scim" = false := by decide +kernel
  have granted : Granted provisioning (.token "k1" sync_token) "scim" :=
    ⟨Or.inr (mem_permissions.mpr ⟨"b1",_,_,rfl,rfl,rfl,by simp⟩),fun listed carries =>
      Option.some.inj carries ▸ Or.inl (by simp)⟩
  rw [refused] at same
  exact absurd (same.mpr granted) (by simp)

theorem token_scopes_iff_owner : ((passes ⟨30,1024⟩ true provisioning ∅ 0 "h1" "scim" = true ↔
    Granted provisioning (.token "k1" sync_token) "scim") ↔
      (Crossed provisioning (.token "k1" sync_token) "scim" ↔ Defaulted provisioning (.token "k1" sync_token) "scim")) :=
  token_scopes_iff ⟨30,1024⟩ true provisioning ∅ 0 "h1" "k1" sync_token "scim" (by decide +kernel) coherent_empty

/-! Bindings for one project. -/

/-- The binding is for the tenant, or for the project that the request is about. -/
def applies (target : Option String) (b : RoleBinding) : Bool :=
  b.scope_type = .tenant || b.scope_id.isSome && b.scope_id = target

/-- The tables as they would be if only those bindings were there. -/
def Directory.in_scope (d : Directory) (target : Option String) : Directory :=
  {d with role_bindings := d.role_bindings.filter fun _ b => applies target b}

/-- Some permission of a role bound by one of these bindings, which the token's own list has too. -/
def Brings (d : Directory) (cred : Credential) (among : RoleBinding → Prop) (x : String) : Prop :=
  (∃ binding_id b role, d.role_bindings.get? binding_id = some b ∧ among b ∧
    bound d cred.tenant_id cred.subject.1 cred.subject.2 b = true ∧ d.roles.get? b.role_id = some role ∧ x ∈ role.permissions) ∧
  ∀ listed, cred.listed = some listed → listed = [] ∨ x ∈ listed

def Lets (d : Directory) (cred : Credential) (among : RoleBinding → Prop) (scope : String) : Prop :=
  Brings d cred among scope ∨ Brings d cred among "*"

/-- A binding for another project lets nothing in that the others do not; where the others bring nothing at all and the
scope is the one that stands for nothing, such a binding has to let it in if it brings anything. -/
def Confined (d : Directory) (cred : Credential) (target : Option String) (scope : String) : Prop :=
  (scope ≠ "read" ∨ (∃ x, Brings d cred (fun b => applies target b = true) x) →
    Lets d cred (fun b => applies target b = false) scope → Lets d cred (fun b => applies target b = true) scope) ∧
  (scope = "read" → (∀ x, ¬Brings d cred (fun b => applies target b = true) x) →
    ∀ x, Brings d cred (fun b => applies target b = false) x → Lets d cred (fun b => applies target b = false) scope)

theorem mem_restrict (scopes : Option (List String)) (permissions : List String) (x : String) :
    x ∈ restrict scopes permissions ↔ x ∈ permissions ∧ ∀ listed, scopes = some listed → listed = [] ∨ x ∈ listed := by
  cases scopes with
  | none => simp [restrict]
  | some listed =>
    cases listed with
    | nil => simp [restrict]
    | cons first rest => simp [restrict_cons,and_comm]

theorem mem_effective (d : Directory) (cred : Credential) (x : String) :
    x ∈ restrict cred.listed (cred.permissions d) ↔ Brings d cred (fun _ => True) x := by
  rw [mem_restrict,Credential.permissions,mem_permissions,Brings]
  simp only [true_and]

theorem in_scope_bindings (d : Directory) (target : Option String) (binding_id : String) (b : RoleBinding) :
    (d.in_scope target).role_bindings.get? binding_id = some b ↔
      d.role_bindings.get? binding_id = some b ∧ applies target b = true := by
  change (d.role_bindings.filter fun _ b => applies target b).get? binding_id = some b ↔ _
  rw [Dict.get?_filter,Option.filter_eq_some_iff]

theorem mem_effective_in_scope (d : Directory) (cred : Credential) (target : Option String) (x : String) :
    x ∈ restrict cred.listed (cred.permissions (d.in_scope target)) ↔ Brings d cred (fun b => applies target b = true) x := by
  rw [mem_effective,Brings,Brings]
  simp only [in_scope_bindings,true_and,and_assoc]
  rfl

theorem brings_split (d : Directory) (cred : Credential) (target : Option String) (x : String) :
    Brings d cred (fun _ => True) x ↔ Brings d cred (fun b => applies target b = true) x ∨
      Brings d cred (fun b => applies target b = false) x := by
  simp only [Brings,true_and]
  constructor
  · intro brings
    obtain ⟨⟨binding_id,b,role,held,counts,has_role,permits⟩,lists⟩ := brings
    cases here : applies target b with
    | true => exact Or.inl ⟨⟨binding_id,b,role,held,here,counts,has_role,permits⟩,lists⟩
    | false => exact Or.inr ⟨⟨binding_id,b,role,held,here,counts,has_role,permits⟩,lists⟩
  · intro brings
    rcases brings with ⟨⟨binding_id,b,role,held,-,rest⟩,lists⟩ | ⟨⟨binding_id,b,role,held,-,rest⟩,lists⟩
    · exact ⟨⟨binding_id,b,role,held,rest⟩,lists⟩
    · exact ⟨⟨binding_id,b,role,held,rest⟩,lists⟩

theorem passes_iff (limits : CacheLimits) (protected_mode : Bool) {d : Directory} {cache : Cache} {now : Nat} {token_hash : String}
    {cred : Credential} (scope : String) (live : credential d now token_hash = some cred)
    (coherent : Coherent d cache now token_hash) :
    passes limits protected_mode d cache now token_hash scope = true ↔
      Allows (restrict cred.listed (cred.permissions d)) scope ∨
        (∀ x, x ∉ restrict cred.listed (cred.permissions d)) ∧ scope = "read" := by
  have resolved : (require_token limits d cache now token_hash).1 = _ := require_token_eq coherent
  rw [live,Option.map_some] at resolved
  rw [passes,resolved]
  dsimp only
  rw [Credential.principal_scopes,require_scope_or_read,List.eq_nil_iff_forall_not_mem]

/-- Adding permissions to others changes no decision exactly when they let nothing in of their own, or where nothing was
there before, when they let it in. -/
theorem same_decision_iff {others added : String → Prop} {scope : String} :
    (((others scope ∨ added scope) ∨ others "*" ∨ added "*") ∨ (∀ x, ¬(others x ∨ added x)) ∧ scope = "read" ↔
      (others scope ∨ others "*") ∨ (∀ x, ¬others x) ∧ scope = "read") ↔
    (scope ≠ "read" ∨ (∃ x, others x) → added scope ∨ added "*" → others scope ∨ others "*") ∧
      (scope = "read" → (∀ x, ¬others x) → ∀ x, added x → added scope ∨ added "*") := by
  by_cases some_other : ∃ x, others x
  · have not_none : ¬∀ x, ¬others x := fun none => some_other.elim none
    have not_none' : ¬∀ x, ¬(others x ∨ added x) := fun none => some_other.elim fun x here => none x (Or.inl here)
    simp only [some_other,not_none,not_none',false_and,or_false,or_true,true_imp_iff,false_imp_iff,imp_true_iff,and_true]
    tauto
  · have none : ∀ x, ¬others x := fun x here => some_other ⟨x,here⟩
    by_cases default : scope = "read"
    · subst default
      have before : (others "read" ∨ others "*") ∨ (∀ x, ¬others x) ∧ "read" = "read" := Or.inr ⟨none,rfl⟩
      rw [iff_true_right before]
      constructor
      · intro decided
        refine ⟨fun reached => ?_,fun _ _ x here => ?_⟩
        · rcases reached with differs | some_here
          · exact absurd rfl differs
          · exact absurd some_here some_other
        · rcases decided with lets | ⟨nothing,-⟩
          · simpa only [none,false_or] using lets
          · exact absurd (Or.inr here) (nothing x)
      · intro confined
        by_cases some_added : ∃ x, added x
        · obtain ⟨x,here⟩ := some_added
          rcases confined.2 rfl none x here with named | wild
          · exact Or.inl (Or.inl (Or.inr named))
          · exact Or.inl (Or.inr (Or.inr wild))
        · exact Or.inr ⟨fun x reached => reached.elim (none x) fun here => some_added ⟨x,here⟩,rfl⟩
    · simp [none,default]

/-- Whether a request is decided as if only the bindings for the tenant and for its project were there: exactly when the
other bindings let nothing in of their own. -/
theorem project_bindings_iff (limits : CacheLimits) (protected_mode : Bool) (d : Directory) (cache : Cache) (now : Nat)
    (token_hash : String) (cred : Credential) (target : Option String) (scope : String)
    (live : credential d now token_hash = some cred) (coherent : Coherent d cache now token_hash) :
    (passes limits protected_mode d cache now token_hash scope = passes limits protected_mode (d.in_scope target) ∅ now token_hash scope) ↔
      Confined d cred target scope := by
  have all := passes_iff limits protected_mode scope live coherent
  have narrow := passes_iff limits protected_mode (d := d.in_scope target) scope live coherent_empty
  simp only [Allows,mem_effective,brings_split d cred target] at all
  simp only [Allows,mem_effective_in_scope] at narrow
  rw [Bool.eq_iff_iff,all,narrow]
  exact same_decision_iff

def unlisted_token : ApiToken := ⟨"t",some "u1","all","h2",none,none,none⟩

theorem project_bindings_iff_owner :
    (passes ⟨30,1024⟩ true provisioning ∅ 0 "h2" "admin" = passes ⟨30,1024⟩ true (provisioning.in_scope (some "b")) ∅ 0 "h2" "admin") ↔
      Confined provisioning (.token "k2" unlisted_token) (some "b") "admin" :=
  project_bindings_iff ⟨30,1024⟩ true provisioning ∅ 0 "h2" (.token "k2" unlisted_token) (some "b") "admin" (by decide +kernel)
    coherent_empty

/-- The owner of project a is let into an admin route whatever project the request is about. -/
theorem other_project_open : passes ⟨30,1024⟩ true provisioning ∅ 0 "h2" "admin" ≠
    passes ⟨30,1024⟩ true (provisioning.in_scope (some "b")) ∅ 0 "h2" "admin" := by
  decide +kernel

end AetherVault.Identity
