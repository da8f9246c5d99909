import AetherVault.Identity
import AetherVault.Lib.Runs

/-! `sso_common.py`: what a login at an identity provider makes of the tables, and whether the groups it asserts are the
ones that its user is in afterwards. -/
namespace AetherVault.Identity
open Lib

structure SsoProvider where
  id : String
  tenant_id : String
  jit_provisioning : Bool
  group_role_map : Dict String String

/-- What the identity provider asserts. -/
structure Claims where
  subject : String
  email : Option String
  groups : List String

/-- Why a login fails; the last two are exceptions of the database. -/
inductive LoginError
  | identity_orphaned
  | jit_disabled
  | user_suspended
  | multiple_rows
  | integrity

/-- `scalar_one_or_none`. -/
def one_or_none {α : Type} : List α → Except LoginError (Option α)
  | [] => .ok none
  | [row] => .ok (some row)
  | _ => .error .multiple_rows

/-- The key of a new row, which has to be a new one. -/
def new_key {α : Type} (table : Dict String α) (id : String) : Except LoginError String :=
  if table.contains id then .error .integrity else .ok id

def username_character (c : Char) : Bool := c.isAlphanum || c = '_' || c = '.' || c = '-'

def _derive_username (email : Option String) (subject : String) : String :=
  let candidate := email.elim [] fun email =>
    if '@' ∈ email.toList then (email.toList.takeWhile (· ≠ '@')).filter username_character else []
  if candidate = [] then "sso-" ++ String.ofList (subject.toList.take 12) else String.ofList candidate

def _resolve_role_by_name (d : Directory) (tenant_id role_name : String) : Except LoginError (Option (String × Role)) := do
  match ← one_or_none (d.roles.entries.filter fun row => row.2.tenant_id = some tenant_id && row.2.name = role_name) with
  | some row => .ok (some row)
  | none => one_or_none (d.roles.entries.filter fun row => row.2.tenant_id = none && row.2.name = role_name)

def groups_named (d : Directory) (tenant_id name : String) : List (String × Group) :=
  d.groups.entries.filter fun row => row.2.tenant_id = tenant_id && row.2.name = name

/-- The group of that name, made if there is none. -/
def named_group (uuid : Directory → String) (d : Directory) (tenant_id name : String) : Except LoginError (Directory × String) := do
  match ← one_or_none (groups_named d tenant_id name) with
  | some row => .ok (d,row.1)
  | none => do
    let id ← new_key d.groups (uuid d)
    .ok ({d with groups := d.groups.set id ⟨tenant_id,name⟩},id)

def target_groups (uuid : Directory → String) (tenant_id : String) :
    List String → Directory × Dict String String → Except LoginError (Directory × Dict String String)
  | [],acc => .ok acc
  | name::rest,acc => do
    let group ← named_group uuid acc.1 tenant_id name
    target_groups uuid tenant_id rest (group.1,acc.2.set group.2 name)

def drop_memberships (d : Directory) (user_id : String) (existing_group_ids : List String) (targets : Dict String String) : Directory :=
  let dropped := existing_group_ids.filter fun group_id => !targets.contains group_id
  {d with group_members := d.group_members.filter fun row => !(row.2 = user_id && dropped.contains row.1)}

def add_member (existing_group_ids : List String) (user_id : String) (d : Directory) (group_id : String) : Directory :=
  if existing_group_ids.contains group_id then d else {d with group_members := d.group_members ++ [(group_id,user_id)]}

/-- The role that is mapped to a target group is bound to it, once. -/
def bind_role (uuid : Directory → String) (provider : SsoProvider) (tenant_id : String) (d : Directory) (target : String × String) :
    Except LoginError Directory :=
  match provider.group_role_map.get? target.2 with
  | none => .ok d
  | some mapped_role_name =>
    if mapped_role_name = "" then .ok d
    else do
      match ← _resolve_role_by_name d tenant_id mapped_role_name with
      | none => .ok d
      | some role => do
        let rows := d.role_bindings.entries.filter fun row => row.2.tenant_id = tenant_id && row.2.subject_type = .group &&
          row.2.subject_id = target.1 && row.2.role_id = role.1 && row.2.scope_type = .tenant
        match ← one_or_none rows with
        | some _ => .ok d
        | none => do
          let id ← new_key d.role_bindings (uuid d)
          .ok {d with role_bindings := d.role_bindings.set id ⟨tenant_id,.group,target.1,role.1,.tenant,none⟩}

def bind_group (uuid : Directory → String) (provider : SsoProvider) (tenant_id user_id : String) (existing_group_ids : List String)
    (d : Directory) (target : String × String) : Except LoginError Directory :=
  bind_role uuid provider tenant_id (add_member existing_group_ids user_id d target.1) target

def sync_groups_and_role_bindings (uuid : Directory → String) (d : Directory) (provider : SsoProvider) (user_id tenant_id : String)
    (group_names : List String) : Except LoginError Directory := do
  let existing_group_ids := (d.group_members.filter fun row => row.2 = user_id).map Prod.fst
  let found ← target_groups uuid tenant_id group_names (d,∅)
  found.2.entries.foldlM (bind_group uuid provider tenant_id user_id existing_group_ids)
    (drop_memberships found.1 user_id existing_group_ids found.2)

/-- A new user; two users of a tenant differ in name and in address. -/
def create_sso_user (uuid : Directory → String) (d : Directory) (tenant_id : String) (email : Option String) (subject : String) :
    Except LoginError (Directory × String) := do
  let username := _derive_username email subject
  let id ← new_key d.users (uuid d)
  if d.users.entries.any fun row => row.2.tenant_id = tenant_id && (row.2.username = username || email.isSome && row.2.email = email) then
    .error .integrity
  else .ok ({d with users := d.users.set id ⟨tenant_id,username,email,.active⟩},id)

/-- The user with the asserted address, or a new one. -/
def user_of_email (uuid : Directory → String) (d : Directory) (provider : SsoProvider) (claims : Claims) :
    Except LoginError (Directory × String) := do
  let rows := d.users.entries.filter fun row => claims.email.any (· ≠ "") && row.2.tenant_id = provider.tenant_id &&
    row.2.email = claims.email
  match ← one_or_none rows with
  | some row => .ok (d,row.1)
  | none => create_sso_user uuid d provider.tenant_id claims.email claims.subject

def provision (uuid : Directory → String) (d : Directory) (provider : SsoProvider) (claims : Claims) :
    Except LoginError (Directory × String) := do
  let found ← user_of_email uuid d provider claims
  .ok ({found.1 with identities := found.1.identities ++ [⟨found.2,provider.id,claims.subject⟩]},found.2)

/-- The user that the identity is linked to, or provisioned just in time where that is allowed. -/
def linked_user (uuid : Directory → String) (d : Directory) (provider : SsoProvider) (claims : Claims) :
    Except LoginError (Directory × String) := do
  let rows := d.identities.filter fun row => row.provider_id = provider.id && row.subject = claims.subject
  match ← one_or_none rows with
  | some identity => .ok (d,identity.user_id)
  | none => if provider.jit_provisioning then provision uuid d provider claims else .error .jit_disabled

def upsert_user_from_claims (uuid : Directory → String) (d : Directory) (provider : SsoProvider) (claims : Claims) :
    Except LoginError (Directory × String) := do
  let found ← linked_user uuid d provider claims
  match found.1.users.get? found.2 with
  | none => .error .identity_orphaned
  | some user =>
    if user.status = .suspended then .error .user_suspended
    else if claims.groups = [] then .ok found
    else do
      let synced ← sync_groups_and_role_bindings uuid found.1 provider found.2 user.tenant_id claims.groups
      .ok (synced,found.2)

def issue_session (uuid : Directory → String) (d : Directory) (user_id tenant_id token_hash : String) (expires_at : Nat) :
    Except LoginError Directory := do
  let id ← new_key d.sessions (uuid d)
  if d.sessions.entries.any fun row => row.2.token_hash = token_hash then .error .integrity
  else .ok {d with sessions := d.sessions.set id ⟨user_id,tenant_id,token_hash,expires_at,none⟩}

/-- One login: what the environment gives it, and the hash of the session token it issues. -/
structure Login where
  uuid : Directory → String
  provider : SsoProvider
  claims : Claims
  token_hash : String
  expires_at : Nat

/-- The callback of either protocol; the user that it logs in. -/
def sso_login (d : Directory) (login : Login) : Except LoginError (Directory × String) := do
  let found ← upsert_user_from_claims login.uuid d login.provider login.claims
  match found.1.users.get? found.2 with
  | none => .error .identity_orphaned
  | some user => do
    let after ← issue_session login.uuid found.1 found.2 user.tenant_id login.token_hash login.expires_at
    .ok (after,found.2)

/-- A login that fails is rolled back. -/
def log_in (d : Directory) (login : Login) : Directory :=
  match sso_login d login with
  | .ok done => done.1
  | .error _ => d

/-! What a group sync comes to. -/

theorem one_or_none_none {α : Type} {rows : List α} : one_or_none rows = .ok none ↔ rows = [] := by
  cases rows with
  | nil => simp [one_or_none]
  | cons first rest =>
    cases rest with
    | nil => simp [one_or_none]
    | cons second rest => simp [one_or_none]

theorem one_or_none_some {α : Type} {rows : List α} {row : α} : one_or_none rows = .ok (some row) ↔ rows = [row] := by
  cases rows with
  | nil => simp [one_or_none]
  | cons first rest =>
    cases rest with
    | nil => simp [one_or_none]
    | cons second rest => simp [one_or_none]

theorem new_key_ok {α : Type} {table : Dict String α} {id key : String} (made : new_key table id = .ok key) :
    key = id ∧ table.get? id = none := by
  unfold new_key at made
  split at made
  · contradiction
  · rename_i free
    exact ⟨(Except.ok.inj made).symm,(Dict.contains_false _ _).mp (by simpa using free)⟩

theorem mem_groups_named {d : Directory} {tenant_id name group_id : String} {group : Group} :
    (group_id,group) ∈ groups_named d tenant_id name ↔
      d.groups.get? group_id = some group ∧ group = ⟨tenant_id,name⟩ := by
  rw [groups_named,List.mem_filter,Dict.mem_entries]
  cases group with
  | mk owner called => simp

/-- The group that is found or made is the only one of its name, and no other group changes. -/
structure Named (d d' : Directory) (tenant_id name group_id : String) : Prop where
  held : d'.groups.get? group_id = some ⟨tenant_id,name⟩
  only : ∀ other, d'.groups.get? other = some ⟨tenant_id,name⟩ → other = group_id
  kept : ∀ other group, d.groups.get? other = some group → d'.groups.get? other = some group
  source : ∀ other group, d'.groups.get? other = some group → d.groups.get? other = some group ∨ group = ⟨tenant_id,name⟩
  rest : d' = {d with groups := d'.groups}

theorem named_group_ok {uuid : Directory → String} {d d' : Directory} {tenant_id name group_id : String}
    (made : named_group uuid d tenant_id name = .ok (d',group_id)) : Named d d' tenant_id name group_id := by
  unfold named_group at made
  cases found : one_or_none (groups_named d tenant_id name) with
  | error e =>
    rw [found] at made
    contradiction
  | ok row =>
    rw [found] at made
    cases row with
    | some row =>
      cases made
      have rows := one_or_none_some.mp found
      have mine := mem_groups_named.mp (show (row.1,row.2) ∈ groups_named d tenant_id name by rw [rows]; simp)
      refine ⟨by rw [mine.1,mine.2],fun other held => ?_,fun _ _ held => held,fun _ _ held => Or.inl held,rfl⟩
      have member := mem_groups_named.mpr ⟨held,rfl⟩
      rw [rows,List.mem_singleton] at member
      exact congrArg Prod.fst member
    | none =>
      have rows := one_or_none_none.mp found
      cases keyed : new_key d.groups (uuid d) with
      | error e =>
        simp only [keyed] at made
        contradiction
      | ok id =>
        simp only [keyed] at made
        cases made
        obtain ⟨rfl,free⟩ := new_key_ok keyed
        refine ⟨Dict.get?_set_same _ _ _,fun other held => ?_,fun other group held => ?_,fun other group held => ?_,rfl⟩
        · rw [Dict.get?_set] at held
          split at held
          · rename_i same
            exact same
          · have member := mem_groups_named.mpr ⟨held,rfl⟩
            rw [rows] at member
            contradiction
        · rw [Dict.get?_set_other]
          · exact held
          · intro same
            rw [same,free] at held
            contradiction
        · rw [Dict.get?_set] at held
          split at held
          · exact Or.inr (Option.some.inj held).symm
          · exact Or.inl held

/-- The targets are the groups named, and there is one of each name. -/
structure Targets (d : Directory) (tenant_id : String) (names : List String) (targets : Dict String String) : Prop where
  sound : ∀ group_id name, targets.get? group_id = some name → name ∈ names ∧ d.groups.get? group_id = some ⟨tenant_id,name⟩
  complete : ∀ group_id name, name ∈ names → d.groups.get? group_id = some ⟨tenant_id,name⟩ → targets.contains group_id = true
  made : ∀ name ∈ names, ∃ group_id, d.groups.get? group_id = some ⟨tenant_id,name⟩

theorem Targets.next {d d' : Directory} {tenant_id name group_id : String} {names : List String} {targets : Dict String String}
    (resolved : Targets d tenant_id names targets) (named : Named d d' tenant_id name group_id) :
    Targets d' tenant_id (names ++ [name]) (targets.set group_id name) where
  sound other called held := by
    rw [Dict.get?_set] at held
    split at held
    · rename_i same
      rw [same,← Option.some.inj held]
      exact ⟨by simp,named.held⟩
    · obtain ⟨member,there⟩ := resolved.sound _ _ held
      exact ⟨by simp [member],named.kept _ _ there⟩
  complete other called member held := by
    by_cases same : called = name
    · rw [same] at held
      rw [named.only other held]
      exact (Dict.contains_iff _ _).mpr ⟨name,Dict.get?_set_same _ _ _⟩
    · have earlier : called ∈ names := by simpa [same] using member
      rcases named.source _ _ held with there | fresh
      · exact Dict.contains_set _ _ _ (resolved.complete _ _ earlier there)
      · exact absurd (congrArg Group.name fresh) same
  made called member := by
    rcases List.mem_append.mp member with earlier | last
    · obtain ⟨other,there⟩ := resolved.made called earlier
      exact ⟨other,named.kept _ _ there⟩
    · rw [List.mem_singleton.mp last]
      exact ⟨group_id,named.held⟩

theorem target_groups_ok {uuid : Directory → String} {tenant_id : String} {names done : List String}
    {acc acc' : Directory × Dict String String} (resolved : Targets acc.1 tenant_id done acc.2)
    (found : target_groups uuid tenant_id names acc = .ok acc') :
    Targets acc'.1 tenant_id (done ++ names) acc'.2 ∧ acc'.1 = {acc.1 with groups := acc'.1.groups} := by
  induction names generalizing acc done with
  | nil =>
    cases found
    exact ⟨by simpa using resolved,rfl⟩
  | cons name rest ih =>
    rw [target_groups] at found
    cases made : named_group uuid acc.1 tenant_id name with
    | error e =>
      rw [made] at found
      contradiction
    | ok group =>
      rw [made] at found
      have named : Named acc.1 group.1 tenant_id name group.2 := named_group_ok made
      obtain ⟨targets,others⟩ := ih (resolved.next named) found
      refine ⟨by simpa using targets,?_⟩
      rw [others,named.rest]

theorem bind_role_ok {uuid : Directory → String} {provider : SsoProvider} {tenant_id : String} {d d' : Directory}
    {target : String × String} (done : bind_role uuid provider tenant_id d target = .ok d') :
    d' = {d with role_bindings := d'.role_bindings} := by
  unfold bind_role at done
  split at done
  · cases done
    rfl
  · rename_i mapped_role_name mapped
    split at done
    · cases done
      rfl
    · cases resolved : _resolve_role_by_name d tenant_id mapped_role_name with
      | error e =>
        simp only [resolved] at done
        contradiction
      | ok role =>
        cases role with
        | none =>
          simp only [resolved] at done
          cases done
          rfl
        | some role =>
          simp only [resolved,Except.bind,bind] at done
          split at done
          · contradiction
          · split at done
            · cases done
              rfl
            · split at done
              · contradiction
              · cases done
                rfl

theorem mem_add_member {existing_group_ids : List String} {user_id group_id : String} {d : Directory} {row : String × String} :
    row ∈ (add_member existing_group_ids user_id d group_id).group_members ↔
      row ∈ d.group_members ∨ group_id ∉ existing_group_ids ∧ row = (group_id,user_id) := by
  unfold add_member
  split
  · rename_i there
    simp [List.contains_iff_mem.mp there]
  · rename_i absent
    have missing : group_id ∉ existing_group_ids := fun there => absent (List.contains_iff_mem.mpr there)
    simp [missing]

theorem add_member_rest (existing_group_ids : List String) (user_id group_id : String) (d : Directory) :
    add_member existing_group_ids user_id d group_id =
      {d with group_members := (add_member existing_group_ids user_id d group_id).group_members} := by
  unfold add_member
  split <;> rfl

theorem bind_groups_ok {uuid : Directory → String} {provider : SsoProvider} {tenant_id user_id : String}
    {existing_group_ids : List String} {targets : List (String × String)} {d d' : Directory}
    (done : targets.foldlM (bind_group uuid provider tenant_id user_id existing_group_ids) d = .ok d') :
    d' = {d with group_members := d'.group_members, role_bindings := d'.role_bindings} ∧ ∀ row, row ∈ d'.group_members ↔
      row ∈ d.group_members ∨ row.1 ∈ targets.map Prod.fst ∧ row.1 ∉ existing_group_ids ∧ row.2 = user_id := by
  induction targets generalizing d with
  | nil =>
    cases done
    simp
  | cons target rest ih =>
    rw [List.foldlM_cons] at done
    cases one : bind_group uuid provider tenant_id user_id existing_group_ids d target with
    | error e =>
      rw [one] at done
      contradiction
    | ok mid =>
      rw [one] at done
      obtain ⟨later,members⟩ := ih done
      have only := bind_role_ok one
      have mid_members : mid.group_members = (add_member existing_group_ids user_id d target.1).group_members := by rw [only]
      refine ⟨?_,fun row => ?_⟩
      · rw [later,only,add_member_rest]
      rw [members,mid_members,mem_add_member,List.map_cons,List.mem_cons]
      constructor
      · intro found
        rcases found with (old | ⟨missing,rfl⟩) | ⟨listed,missing,mine⟩
        · exact Or.inl old
        · exact Or.inr ⟨Or.inl rfl,missing,rfl⟩
        · exact Or.inr ⟨Or.inr listed,missing,mine⟩
      · intro found
        rcases found with old | ⟨here | listed,missing,mine⟩
        · exact Or.inl (Or.inl old)
        · exact Or.inl (Or.inr ⟨here ▸ missing,Prod.ext here mine⟩)
        · exact Or.inr ⟨listed,missing,mine⟩

/-! What a login comes to. -/

/-- The user is in the group. -/
def Directory.member (d : Directory) (group_id user_id : String) : Prop := (group_id,user_id) ∈ d.group_members

/-- The user's groups in the tenant are exactly the groups named. -/
structure Exact (d : Directory) (tenant_id user_id : String) (names : List String) : Prop where
  members : ∀ group_id group, d.groups.get? group_id = some group → group.tenant_id = tenant_id →
    (d.member group_id user_id ↔ group.name ∈ names)
  made : ∀ name ∈ names, ∃ group_id, d.groups.get? group_id = some ⟨tenant_id,name⟩ ∧ d.member group_id user_id

theorem sync_members {uuid : Directory → String} {d d' : Directory} {provider : SsoProvider} {user_id tenant_id : String}
    {group_names : List String} (synced : sync_groups_and_role_bindings uuid d provider user_id tenant_id group_names = .ok d') :
    d' = {d with groups := d'.groups, group_members := d'.group_members, role_bindings := d'.role_bindings} ∧
      Exact d' tenant_id user_id group_names := by
  unfold sync_groups_and_role_bindings at synced
  dsimp only at synced
  cases found : target_groups uuid tenant_id group_names (d,∅) with
  | error e =>
    rw [found] at synced
    contradiction
  | ok acc =>
    rw [found] at synced
    have fresh : Targets (d,(∅ : Dict String String)).1 tenant_id [] (d,(∅ : Dict String String)).2 :=
      ⟨fun _ _ held => by simp at held,fun _ _ none => by simp at none,fun _ none => by simp at none⟩
    obtain ⟨targets,others⟩ := target_groups_ok fresh found
    rw [List.nil_append] at targets
    obtain ⟨rest,members⟩ := bind_groups_ok synced
    have groups : d'.groups = acc.1.groups := by
      rw [rest]
      rfl
    have same_members : acc.1.group_members = d.group_members := by rw [others]
    have mine (group_id : String) : d'.member group_id user_id ↔ acc.2.contains group_id = true := by
      have listed : group_id ∈ acc.2.entries.map Prod.fst ↔ acc.2.contains group_id = true :=
        (Dict.mem_keys _ _).trans (Dict.contains_iff _ _).symm
      have before : group_id ∈ (d.group_members.filter fun row => row.2 = user_id).map Prod.fst ↔
          (group_id,user_id) ∈ d.group_members := by simp
      rw [Directory.member,members,listed,before]
      simp only [drop_memberships,List.mem_filter,same_members,decide_true,Bool.true_and,Bool.not_eq_true',
        List.contains_eq_mem,decide_eq_false_iff_not,before,not_and,Bool.not_eq_false]
      tauto
    refine ⟨?_,⟨fun group_id group held owned => ?_,fun name member => ?_⟩⟩
    · rw [rest,drop_memberships,others]
    · have there : acc.1.groups.get? group_id = some group := by
        rw [groups] at held
        exact held
      rw [mine]
      constructor
      · intro target
        obtain ⟨name,found⟩ := (Dict.contains_iff _ _).mp target
        obtain ⟨member,same⟩ := targets.sound _ _ found
        rw [there] at same
        rw [Option.some.inj same]
        exact member
      · intro member
        have shape : group = ⟨tenant_id,group.name⟩ := by rw [← owned]
        exact targets.complete _ _ member (by rw [there,← shape])
    · obtain ⟨group_id,there⟩ := targets.made name member
      have held : d'.groups.get? group_id = some ⟨tenant_id,name⟩ := by
        rw [groups]
        exact there
      exact ⟨group_id,held,(mine group_id).mpr (targets.complete _ _ member there)⟩

theorem create_sso_user_ok {uuid : Directory → String} {d : Directory} {tenant_id subject : String} {email : Option String}
    {found : Directory × String} (done : create_sso_user uuid d tenant_id email subject = .ok found) :
    ∃ user, found.1 = {d with users := d.users.set found.2 user} ∧ d.users.get? found.2 = none ∧ user.status = .active := by
  unfold create_sso_user at done
  dsimp only at done
  cases keyed : new_key d.users (uuid d) with
  | error e =>
    rw [keyed] at done
    contradiction
  | ok id =>
    rw [keyed] at done
    obtain ⟨rfl,free⟩ := new_key_ok keyed
    simp only [Except.bind,bind] at done
    split at done
    · contradiction
    · cases done
      exact ⟨_,rfl,free,rfl⟩

/-- Users are only added, and active. -/
structure Grown (users users' : Dict String User) : Prop where
  kept : ∀ user_id user, users.get? user_id = some user → users'.get? user_id = some user
  source : ∀ user_id user, users'.get? user_id = some user → users.get? user_id = some user ∨ user.status = .active

theorem grown_refl (users : Dict String User) : Grown users users := ⟨fun _ _ held => held,fun _ _ held => Or.inl held⟩

theorem create_sso_user_grown {uuid : Directory → String} {d : Directory} {tenant_id subject : String} {email : Option String}
    {found : Directory × String} (done : create_sso_user uuid d tenant_id email subject = .ok found) :
    found.1 = {d with users := found.1.users} ∧ Grown d.users found.1.users := by
  obtain ⟨user,created,free,active⟩ := create_sso_user_ok done
  rw [created]
  refine ⟨rfl,⟨fun other row held => ?_,fun other row held => ?_⟩⟩
  · rw [Dict.get?_set_other]
    · exact held
    · intro same
      rw [same,free] at held
      contradiction
  · rw [Dict.get?_set] at held
    split at held
    · exact Or.inr (Option.some.inj held ▸ active)
    · exact Or.inl held

/-- Finding the user, or making one, touches users and identities only. -/
theorem linked_user_ok {uuid : Directory → String} {d : Directory} {provider : SsoProvider} {claims : Claims}
    {found : Directory × String} (done : linked_user uuid d provider claims = .ok found) :
    found.1 = {d with users := found.1.users, identities := found.1.identities} ∧ Grown d.users found.1.users := by
  have by_email {found : Directory × String} (done : user_of_email uuid d provider claims = .ok found) :
      found.1 = {d with users := found.1.users} ∧ Grown d.users found.1.users := by
    unfold user_of_email at done
    simp only [Except.bind,bind] at done
    split at done
    · contradiction
    · split at done
      · cases done
        exact ⟨rfl,grown_refl _⟩
      · exact create_sso_user_grown done
  unfold linked_user at done
  simp only [Except.bind,bind] at done
  split at done
  · contradiction
  · split at done
    · cases done
      exact ⟨rfl,grown_refl _⟩
    · split at done
      · unfold provision at done
        simp only [Except.bind,bind] at done
        split at done
        · contradiction
        · rename_i user known
          cases done
          obtain ⟨rest,grown⟩ := by_email known
          exact ⟨by rw [rest],grown⟩
      · contradiction

/-- What a login leaves alone: the credentials, and with no groups asserted the memberships. -/
structure LeavesAlone (d d' : Directory) (claims : Claims) : Prop where
  sessions : d'.sessions = d.sessions
  api_tokens : d'.api_tokens = d.api_tokens
  users : Grown d.users d'.users
  groups : claims.groups = [] → d'.groups = d.groups ∧ d'.group_members = d.group_members

/-- A login with groups syncs them; one without leaves groups and memberships alone. -/
theorem upsert_ok {uuid : Directory → String} {d d' : Directory} {provider : SsoProvider} {claims : Claims} {user_id : String}
    (done : upsert_user_from_claims uuid d provider claims = .ok (d',user_id)) : LeavesAlone d d' claims ∧
    ∃ user, d'.users.get? user_id = some user ∧ user.status = .active ∧
      (claims.groups ≠ [] → Exact d' user.tenant_id user_id claims.groups) := by
  unfold upsert_user_from_claims at done
  simp only [Except.bind,bind] at done
  split at done
  · contradiction
  · rename_i found linked
    obtain ⟨rest,grown⟩ := linked_user_ok linked
    have sessions : found.1.sessions = d.sessions := by rw [rest]
    have api_tokens : found.1.api_tokens = d.api_tokens := by rw [rest]
    have untouched : found.1.groups = d.groups ∧ found.1.group_members = d.group_members := ⟨by rw [rest],by rw [rest]⟩
    split at done
    · contradiction
    · rename_i user known
      split at done
      · contradiction
      · rename_i standing
        have active : user.status = .active := by
          cases status : user.status with
          | active => rfl
          | suspended => exact absurd status standing
        split at done
        · rename_i none
          cases done
          exact ⟨⟨sessions,api_tokens,grown,fun _ => untouched⟩,user,known,active,fun some_group => absurd none some_group⟩
        · rename_i some_group
          split at done
          · contradiction
          · rename_i synced sync
            cases done
            obtain ⟨others,exactly⟩ := sync_members sync
            have users : d'.users = found.1.users := by rw [others]
            refine ⟨⟨?_,?_,?_,fun none => absurd none some_group⟩,user,by rw [users,known],active,fun _ => exactly⟩
            · rw [others]
              exact sessions
            · rw [others]
              exact api_tokens
            · rw [users]
              exact grown

theorem issue_session_ok {uuid : Directory → String} {d d' : Directory} {user_id tenant_id token_hash : String} {expires_at : Nat}
    (done : issue_session uuid d user_id tenant_id token_hash expires_at = .ok d') :
    ∃ id, d' = {d with sessions := d.sessions.set id ⟨user_id,tenant_id,token_hash,expires_at,none⟩} ∧ d.sessions.get? id = none ∧
      ∀ other row, d.sessions.get? other = some row → row.token_hash ≠ token_hash := by
  unfold issue_session at done
  cases keyed : new_key d.sessions (uuid d) with
  | error e =>
    rw [keyed] at done
    contradiction
  | ok id =>
    rw [keyed] at done
    obtain ⟨rfl,free⟩ := new_key_ok keyed
    simp only [Except.bind,bind] at done
    split at done
    · contradiction
    · rename_i unused
      cases done
      refine ⟨_,rfl,free,fun other row held same => unused ?_⟩
      exact List.any_eq_true.mpr ⟨(other,row),(Dict.mem_entries _ _ _).mpr held,by simpa using same⟩

/-- The user is in no group of the tenant. -/
def Ungrouped (d : Directory) (tenant_id user_id : String) : Prop :=
  ∀ group_id group, d.groups.get? group_id = some group → group.tenant_id = tenant_id → ¬d.member group_id user_id

/-- After the login the user's groups are the asserted ones. -/
def Synced (d : Directory) (login : Login) : Prop := ∀ d' user_id user, sso_login d login = .ok (d',user_id) →
  d'.users.get? user_id = some user → Exact d' user.tenant_id user_id login.claims.groups

/-- The login asserts a group, or its user is in none of the tenant's. -/
def Asserts (d : Directory) (login : Login) : Prop := ∀ d' user_id user, sso_login d login = .ok (d',user_id) →
  d'.users.get? user_id = some user → login.claims.groups = [] → Ungrouped d user.tenant_id user_id

theorem sso_login_ok {d d' : Directory} {login : Login} {user_id : String} (done : sso_login d login = .ok (d',user_id)) :
    Grown d.users d'.users ∧ d'.api_tokens = d.api_tokens ∧
    (login.claims.groups = [] → d'.groups = d.groups ∧ d'.group_members = d.group_members) ∧
    ∃ user id, d'.users.get? user_id = some user ∧ user.status = .active ∧
      (login.claims.groups ≠ [] → Exact d' user.tenant_id user_id login.claims.groups) ∧
      d'.sessions = d.sessions.set id ⟨user_id,user.tenant_id,login.token_hash,login.expires_at,none⟩ := by
  unfold sso_login at done
  simp only [Except.bind,bind] at done
  split at done
  · contradiction
  · rename_i found upserted
    split at done
    · contradiction
    · rename_i user known
      split at done
      · contradiction
      · rename_i after issued
        cases done
        obtain ⟨alone,other,held,active,some_group⟩ := upsert_ok upserted
        obtain ⟨id,added,-,-⟩ := issue_session_ok issued
        rw [known] at held
        cases held
        have users : d'.users = found.1.users := by rw [added]
        refine ⟨?_,?_,?_,user,id,by rw [users,known],active,?_,?_⟩
        · rw [users]
          exact alone.users
        · rw [added]
          exact alone.api_tokens
        · rw [added]
          exact alone.groups
        · intro more
          rw [added]
          exact ⟨(some_group more).members,(some_group more).made⟩
        · rw [added,← alone.sessions]

theorem synced_iff (d : Directory) (login : Login) : Synced d login ↔ Asserts d login := by
  constructor
  · intro synced d' user_id user done known none group_id group held owned member
    obtain ⟨-,-,untouched,-⟩ := sso_login_ok done
    obtain ⟨groups,members⟩ := untouched none
    have exactly := (synced d' user_id user done known).members group_id group (by rw [groups,held]) owned
    rw [none] at exactly
    have inside : d'.member group_id user_id := by
      rw [Directory.member,members]
      exact member
    simpa using exactly.mp inside
  · intro asserts d' user_id user done known
    obtain ⟨-,-,untouched,other,_,known',-,some_group,-⟩ := sso_login_ok done
    rw [known] at known'
    cases known'
    by_cases none : login.claims.groups = []
    · obtain ⟨groups,members⟩ := untouched none
      have apart := asserts d' user_id user done known none
      refine ⟨fun group_id group held owned => ?_,fun name listed => by simp [none] at listed⟩
      rw [groups] at held
      rw [none,Directory.member,members]
      exact iff_of_false (apart group_id group held owned) (by simp)
    · exact some_group none

/-- In every sequence of logins, from any tables, each leaves its user in exactly the groups it asserts if and only if each
asserts a group or finds its user in none. -/
theorem logins_sync_iff (d : Directory) (logins : List Login) :
    Runs.Every log_in Synced d logins ↔ Runs.Every log_in Asserts d logins :=
  Runs.every_congr (I := fun _ => True) (fun _ _ _ => trivial) (fun d login _ => synced_iff d login) trivial logins

/-- A user in one group, whom the identity provider has taken out of all of them. -/
def grouped : Directory where
  users := Dict.ofList [("u1",⟨"t","ada",none,.active⟩)]
  identities := [⟨"u1","idp","ada"⟩]
  groups := Dict.ofList [("g1",⟨"t","admins"⟩)]
  group_members := [("g1","u1")]
  roles := ∅
  role_bindings := ∅
  api_tokens := ∅
  sessions := ∅

def no_groups : Login := ⟨fun _ => "s1",⟨"idp","t",false,∅⟩,⟨"ada",none,[]⟩,"h1",100⟩

theorem last_group_stays : ¬Runs.Every log_in Synced grouped [no_groups] := by
  intro every
  have done : sso_login grouped no_groups = .ok (log_in grouped no_groups,"u1") := rfl
  have exactly := every [] no_groups [] rfl (log_in grouped no_groups) "u1" ⟨"t","ada",none,.active⟩ done rfl
  have member := (exactly.members "g1" ⟨"t","admins"⟩ rfl rfl).mp (List.mem_singleton.mpr rfl)
  simp [no_groups] at member

end AetherVault.Identity
