import AetherVault.Lib.Dict
import AetherVault.Lib.Runs

/-! `device_flow.py`: the device codes that Redis holds between a terminal's login and its polls, as calls of one
Redis command after another, any number of them at once, while keys expire. -/
namespace AetherVault.DeviceFlow
open Lib

inductive Status
  | pending
  | approved
  | expired
  deriving DecidableEq

variable (Device User Token : Type)

structure Record where
  provider_id : String
  status : Status
  session_token : Option Token

structure Redis where
  codes : Dict Device (Record Token)
  usercodes : Dict User Device

/-- A login carries the session token that was issued for it. -/
inductive Request
  | create (provider_id : String) (device_code : Device) (user_code : User)
  | approve (user_code : User) (session_token : Token)
  | poll (device_code : Device)
  deriving DecidableEq

/-- What a call knows before its next command, or what it has returned. -/
inductive Stage
  | start
  | named
  | created
  | found (device_code : Device)
  | read (device_code : Device) (record : Record Token)
  | timed (device_code : Device) (record : Record Token)
  | approved (device_code : Device)
  | unknown
  | collecting (session_token : Option Token)
  | polled (status : Status) (session_token : Option Token)

structure Call where
  request : Request Device User Token
  stage : Stage Device Token

structure System where
  redis : Redis Device User Token
  calls : Dict Nat (Call Device User Token)

inductive Move
  | arrive (i : Nat) (request : Request Device User Token)
  | advance (i : Nat)
  | expire_code (device_code : Device)
  | expire_usercode (user_code : User)

variable {Device User Token} [DecidableEq Device] [DecidableEq User] [DecidableEq Token]

/-- The next command of `create`, `approve` or `poll`. How long a key is kept does not matter where it may expire at
any time, so the answer of TTL is not used. -/
def act (redis : Redis Device User Token) :
    Request Device User Token → Stage Device Token → Redis Device User Token × Stage Device Token
  | .create provider_id device_code _,.start =>
    ({redis with codes := redis.codes.set device_code ⟨provider_id,.pending,none⟩},.named)
  | .create _ device_code user_code,.named => ({redis with usercodes := redis.usercodes.set user_code device_code},.created)
  | .approve user_code _,.start => (redis,(redis.usercodes.get? user_code).elim .unknown .found)
  | .approve _ _,.found device_code => (redis,(redis.codes.get? device_code).elim .unknown (.read device_code))
  | .approve _ _,.read device_code record => (redis,.timed device_code record)
  | .approve _ session_token,.timed device_code record =>
    ({redis with codes := redis.codes.set device_code {record with status := .approved, session_token := some session_token}},
      .approved device_code)
  | .poll device_code,.start => (redis,(redis.codes.get? device_code).elim (.polled .expired none) fun record =>
      if record.status ≠ .approved then .polled .pending none else .collecting record.session_token)
  | .poll device_code,.collecting session_token => ({redis with codes := redis.codes.erase device_code},.polled .approved session_token)
  | _,stage => (redis,stage)

namespace System

variable (s : System Device User Token)

/-- Session tokens come from `secrets`, which never gives one twice. -/
def fresh : Request Device User Token → Bool
  | .approve _ session_token => s.calls.entries.all fun entry =>
    match entry.2.request with
    | .approve _ other => other ≠ session_token
    | _ => true
  | _ => true

def step : Move Device User Token → System Device User Token
  | .arrive i request =>
    if s.calls.contains i || !s.fresh request then s else {s with calls := s.calls.set i ⟨request,.start⟩}
  | .advance i => (s.calls.get? i).elim s fun call =>
    ⟨(act s.redis call.request call.stage).1,s.calls.set i ⟨call.request,(act s.redis call.request call.stage).2⟩⟩
  | .expire_code device_code => {s with redis := {s.redis with codes := s.redis.codes.erase device_code}}
  | .expire_usercode user_code => {s with redis := {s.redis with usercodes := s.redis.usercodes.erase user_code}}

def empty : System Device User Token := ⟨⟨∅,∅⟩,∅⟩

/-- The device code was given out with this user code. -/
def Created (device_code : Device) (user_code : User) : Prop :=
  ∃ i provider_id stage, s.calls.get? i = some ⟨.create provider_id device_code user_code,stage⟩

/-- A login with this user code was issued this session token. -/
def LoggedIn (user_code : User) (session_token : Token) : Prop :=
  ∃ i stage, s.calls.get? i = some ⟨.approve user_code session_token,stage⟩

/-- The poll `i` has returned a session token. -/
def Returned (i : Nat) (device_code : Device) (session_token : Token) : Prop :=
  s.calls.get? i = some ⟨.poll device_code,.polled .approved (some session_token)⟩

/-- The poll `i` has returned a session token, or has read it and is about to delete its record. -/
def Collects (i : Nat) (device_code : Device) (session_token : Token) : Prop :=
  s.calls.get? i = some ⟨.poll device_code,.collecting (some session_token)⟩ ∨ s.Returned i device_code session_token

def ReturnedOnce : Prop := ∀ i j device_code device_code' session_token,
  s.Returned i device_code session_token → s.Returned j device_code' session_token → i = j

def CollectedOnce : Prop := ∀ i j device_code device_code' session_token,
  s.Collects i device_code session_token → s.Collects j device_code' session_token → i = j

/-- A session token is returned for a device code whose user code was approved with it. -/
def Paired : Prop := ∀ i device_code session_token, s.Returned i device_code session_token →
  ∃ user_code, s.Created device_code user_code ∧ s.LoggedIn user_code session_token

/-- No poll reads an approved record between another poll's read of it and its delete. -/
def Apart : Move Device User Token → Prop
  | .advance i => ∀ device_code record session_token, s.calls.get? i = some ⟨.poll device_code,.start⟩ →
      s.redis.codes.get? device_code = some record → record.status = .approved → record.session_token = some session_token →
      ∀ j device_code', s.calls.get? j ≠ some ⟨.poll device_code',.collecting (some session_token)⟩
  | _ => True

/-- No poll is between its read and its delete. -/
def Idle : Prop := ∀ i device_code session_token, s.calls.get? i ≠ some ⟨.poll device_code,.collecting session_token⟩

end System

/-! What one command does. -/

def Stage.device_code : Stage Device Token → Option Device
  | .found device_code => some device_code
  | .read device_code _ => some device_code
  | .timed device_code _ => some device_code
  | .approved device_code => some device_code
  | _ => none

section Commands

variable {redis : Redis Device User Token} {request : Request Device User Token} {stage : Stage Device Token}

omit [DecidableEq Token] in
theorem act_codes {device_code : Device} {record : Record Token} {session_token : Token}
    (found : (act redis request stage).1.codes.get? device_code = some record) (holds : record.session_token = some session_token) :
    redis.codes.get? device_code = some record ∨
      ∃ user_code, request = .approve user_code session_token ∧ (act redis request stage).2 = .approved device_code := by
  unfold act at found ⊢
  split at found
  · rw [Dict.get?_set] at found
    split at found
    · cases found
      contradiction
    · exact Or.inl found
  · exact Or.inl found
  · exact Or.inl found
  · exact Or.inl found
  · exact Or.inl found
  · rw [Dict.get?_set] at found
    split at found
    · rename_i same
      cases found
      cases holds
      exact Or.inr ⟨_,rfl,by rw [same]⟩
    · exact Or.inl found
  · exact Or.inl found
  · rw [Dict.get?_erase] at found
    split at found
    · contradiction
    · exact Or.inl found
  · exact Or.inl found

omit [DecidableEq Token] in
theorem act_usercodes {user_code : User} {device_code : Device}
    (found : (act redis request stage).1.usercodes.get? user_code = some device_code) :
    redis.usercodes.get? user_code = some device_code ∨ ∃ provider_id, request = .create provider_id device_code user_code := by
  unfold act at found
  split at found
  case h_2 =>
    rw [Dict.get?_set] at found
    split at found
    · rename_i same
      cases found
      exact Or.inr ⟨_,by rw [same]⟩
    · exact Or.inl found
  all_goals exact Or.inl found

omit [DecidableEq Token] in
theorem act_device {user_code : User} {session_token : Token} {device_code : Device}
    (reached : (act redis (.approve user_code session_token) stage).2.device_code = some device_code) :
    stage.device_code = some device_code ∨ redis.usercodes.get? user_code = some device_code := by
  cases stage with
  | start =>
    cases found : redis.usercodes.get? user_code with
    | none => simp [act,found,Stage.device_code] at reached
    | some other => exact Or.inr (by simpa [act,found,Stage.device_code] using reached)
  | found other =>
    cases held : redis.codes.get? other with
    | none => simp [act,held,Stage.device_code] at reached
    | some record => exact Or.inl (by simpa [act,held,Stage.device_code] using reached)
  | _ => exact Or.inl reached

omit [DecidableEq Token] in
theorem act_collecting {device_code : Device} {session_token : Option Token}
    (reached : (act redis (.poll device_code) stage).2 = .collecting session_token) :
    stage = .start ∧ ∃ record, redis.codes.get? device_code = some record ∧ record.status = .approved ∧
      record.session_token = session_token := by
  cases stage with
  | start =>
    cases found : redis.codes.get? device_code with
    | none => simp [act,found] at reached
    | some record =>
      by_cases approved : record.status = .approved
      · exact ⟨rfl,record,rfl,approved,by simpa [act,found,approved] using reached⟩
      · simp [act,found,approved] at reached
  | collecting other => simp [act] at reached
  | _ => simp [act] at reached

omit [DecidableEq Token] in
theorem act_polled {device_code : Device} {session_token : Token}
    (reached : (act redis (.poll device_code) stage).2 = .polled .approved (some session_token)) :
    stage = .polled .approved (some session_token) ∨
      stage = .collecting (some session_token) ∧ (act redis (.poll device_code) stage).1.codes.get? device_code = none := by
  cases stage with
  | start =>
    cases found : redis.codes.get? device_code with
    | none => simp [act,found] at reached
    | some record =>
      by_cases approved : record.status = .approved
      · simp [act,found,approved] at reached
      · simp [act,found,approved] at reached
  | collecting other =>
    refine Or.inr ⟨by simpa [act] using reached,?_⟩
    simp [act,Dict.get?_erase]
  | _ => exact Or.inl reached

omit [DecidableEq Token] in
theorem act_approved (user_code : User) (session_token : Token) (device_code : Device) :
    act redis (.approve user_code session_token) (.approved device_code) = (redis,.approved device_code) := rfl

end Commands

/-! Where a session token can be. -/

namespace System

variable {s : System Device User Token}

/-- The login with this token has ended, and put it under the device code. -/
def Stored (s : System Device User Token) (device_code : Device) (session_token : Token) : Prop :=
  ∃ i user_code, s.calls.get? i = some ⟨.approve user_code session_token,.approved device_code⟩

structure Traced (s : System Device User Token) : Prop where
  once : ∀ i j user_code user_code' session_token stage stage', s.calls.get? i = some ⟨.approve user_code session_token,stage⟩ →
    s.calls.get? j = some ⟨.approve user_code' session_token,stage'⟩ → i = j
  linked : ∀ user_code device_code, s.redis.usercodes.get? user_code = some device_code → s.Created device_code user_code
  walking : ∀ i user_code session_token stage device_code, s.calls.get? i = some ⟨.approve user_code session_token,stage⟩ →
    stage.device_code = some device_code → s.Created device_code user_code
  stored : ∀ device_code record session_token, s.redis.codes.get? device_code = some record →
    record.session_token = some session_token → s.Stored device_code session_token
  taken : ∀ i device_code session_token, s.Collects i device_code session_token → s.Stored device_code session_token
  gone : ∀ i device_code session_token record, s.Returned i device_code session_token →
    s.redis.codes.get? device_code = some record → record.session_token ≠ some session_token

omit [DecidableEq Token] in
theorem Traced.same_device (traced : s.Traced) {device_code device_code' : Device} {session_token : Token}
    (stored : s.Stored device_code session_token) (stored' : s.Stored device_code' session_token) : device_code = device_code' := by
  obtain ⟨i,user_code,found⟩ := stored
  obtain ⟨j,user_code',found'⟩ := stored'
  have same := traced.once _ _ _ _ _ _ _ found found'
  subst same
  rw [found] at found'
  injection Option.some.inj found' with _ stage
  exact Stage.approved.inj stage

omit [DecidableEq Device] [DecidableEq User] in
theorem fresh_login {user_code : User} {session_token : Token} (unused : s.fresh (.approve user_code session_token) = true)
    {i : Nat} {other : User} {stage : Stage Device Token} :
    s.calls.get? i ≠ some ⟨.approve other session_token,stage⟩ := by
  intro found
  have member := (Dict.mem_entries _ _ _).mpr found
  have differs := List.all_eq_true.mp unused _ member
  simp at differs

/-! The calls after a step: those there were, one that has arrived, and the one that has advanced. -/

theorem arrive_get {i j : Nat} {request : Request Device User Token} {call : Call Device User Token}
    (found : (s.step (.arrive i request)).calls.get? j = some call) :
    s.calls.get? j = some call ∨ j = i ∧ call = ⟨request,.start⟩ ∧ s.fresh request = true := by
  rw [step] at found
  split at found
  · exact Or.inl found
  · rename_i free
    have unused : s.calls.contains i = false ∧ s.fresh request = true := by simpa using free
    rw [Dict.get?_set] at found
    split at found
    · rename_i same
      exact Or.inr ⟨same,(Option.some.inj found).symm,unused.2⟩
    · exact Or.inl found

theorem advance_get {i j : Nat} {call : Call Device User Token} (found : (s.step (.advance i)).calls.get? j = some call) :
    s.calls.get? j = some call ∨ j = i ∧ ∃ stage, s.calls.get? i = some ⟨call.request,stage⟩ ∧
      call.stage = (act s.redis call.request stage).2 ∧ (s.step (.advance i)).redis = (act s.redis call.request stage).1 := by
  rw [step] at found ⊢
  cases held : s.calls.get? i with
  | none => exact Or.inl (by simpa [held] using found)
  | some before =>
    rw [held,Option.elim_some,Dict.get?_set] at found
    split at found
    · rename_i same
      cases found
      exact Or.inr ⟨same,before.stage,rfl,rfl,rfl⟩
    · exact Or.inl found

theorem advance_moves {i : Nat} {call : Call Device User Token} (found : s.calls.get? i = some call) :
    (s.step (.advance i)).calls.get? i = some ⟨call.request,(act s.redis call.request call.stage).2⟩ := by
  rw [step,found,Option.elim_some]
  exact Dict.get?_set_same _ _ _

/-- A call stays as it is until its next command. -/
theorem step_call {j : Nat} {call : Call Device User Token} (found : s.calls.get? j = some call) (m : Move Device User Token) :
    (s.step m).calls.get? j = some call ∨
      m = .advance j ∧ (s.step m).calls.get? j = some ⟨call.request,(act s.redis call.request call.stage).2⟩ := by
  cases m with
  | arrive i request =>
    left
    rw [step]
    split
    · exact found
    · rename_i free
      have unused : s.calls.contains i = false ∧ s.fresh request = true := by simpa using free
      have absent : s.calls.get? i = none := (Dict.contains_false _ _).mp unused.1
      rw [Dict.get?_set_other]
      · exact found
      · intro same
        rw [same,absent] at found
        contradiction
  | advance i =>
    by_cases same : j = i
    · subst same
      exact Or.inr ⟨rfl,advance_moves found⟩
    · left
      rw [step]
      cases s.calls.get? i with
      | none => exact found
      | some other => rw [Option.elim_some,Dict.get?_set_other _ _ _ _ same,found]
  | expire_code device_code => exact Or.inl found
  | expire_usercode user_code => exact Or.inl found

theorem step_request {j : Nat} {request : Request Device User Token} {stage : Stage Device Token}
    (found : s.calls.get? j = some ⟨request,stage⟩) (m : Move Device User Token) :
    ∃ later, (s.step m).calls.get? j = some ⟨request,later⟩ := by
  rcases step_call found m with same | ⟨-,moved⟩
  · exact ⟨stage,same⟩
  · exact ⟨_,moved⟩

theorem Created.step {device_code : Device} {user_code : User} (created : s.Created device_code user_code)
    (m : Move Device User Token) : (s.step m).Created device_code user_code := by
  obtain ⟨i,provider_id,stage,found⟩ := created
  obtain ⟨later,found'⟩ := step_request found m
  exact ⟨i,provider_id,later,found'⟩

theorem LoggedIn.step {user_code : User} {session_token : Token} (logged_in : s.LoggedIn user_code session_token)
    (m : Move Device User Token) : (s.step m).LoggedIn user_code session_token := by
  obtain ⟨i,stage,found⟩ := logged_in
  obtain ⟨later,found'⟩ := step_request found m
  exact ⟨i,later,found'⟩

theorem Stored.step {device_code : Device} {session_token : Token} (stored : s.Stored device_code session_token)
    (m : Move Device User Token) : (s.step m).Stored device_code session_token := by
  obtain ⟨i,user_code,found⟩ := stored
  rcases step_call found m with same | ⟨-,moved⟩
  · exact ⟨i,user_code,same⟩
  · exact ⟨i,user_code,moved⟩

/-- What is collected stays collected. -/
theorem Collects.step {i : Nat} {device_code : Device} {session_token : Token} (collects : s.Collects i device_code session_token)
    (m : Move Device User Token) : (s.step m).Collects i device_code session_token := by
  rcases collects with reading | returned
  · rcases step_call reading m with same | ⟨-,moved⟩
    · exact Or.inl same
    · exact Or.inr moved
  · rcases step_call returned m with same | ⟨-,moved⟩
    · exact Or.inr same
    · exact Or.inr moved

/-! Each part of the invariant, over one step. -/

theorem Traced.once_step (traced : s.Traced) (m : Move Device User Token) {i j : Nat} {user_code user_code' : User}
    {session_token : Token} {stage stage' : Stage Device Token}
    (found : (s.step m).calls.get? i = some ⟨.approve user_code session_token,stage⟩)
    (found' : (s.step m).calls.get? j = some ⟨.approve user_code' session_token,stage'⟩) : i = j := by
  cases m with
  | arrive k request =>
    rcases arrive_get found with old | ⟨rfl,fresh,unused⟩
    · rcases arrive_get found' with old' | ⟨rfl,fresh',unused'⟩
      · exact traced.once _ _ _ _ _ _ _ old old'
      · cases fresh'
        exact absurd old (fresh_login unused')
    · rcases arrive_get found' with old' | ⟨rfl,-,-⟩
      · cases fresh
        exact absurd old' (fresh_login unused)
      · rfl
  | advance k =>
    have earlier {l : Nat} {user : User} {reached : Stage Device Token}
        (after : (s.step (.advance k)).calls.get? l = some ⟨.approve user session_token,reached⟩) :
        ∃ at_first, s.calls.get? l = some ⟨.approve user session_token,at_first⟩ := by
      rcases advance_get after with old | ⟨rfl,at_first,old,-,-⟩
      · exact ⟨_,old⟩
      · exact ⟨_,old⟩
    obtain ⟨_,old⟩ := earlier found
    obtain ⟨_,old'⟩ := earlier found'
    exact traced.once _ _ _ _ _ _ _ old old'
  | expire_code _ => exact traced.once _ _ _ _ _ _ _ found found'
  | expire_usercode _ => exact traced.once _ _ _ _ _ _ _ found found'

theorem arrive_redis (i : Nat) (request : Request Device User Token) : (s.step (.arrive i request)).redis = s.redis := by
  rw [step]
  split <;> rfl

/-- An advance leaves the state alone, or is the next command of a call. -/
theorem advance_redis (i : Nat) : (s.step (.advance i)).redis = s.redis ∨ ∃ request stage,
    s.calls.get? i = some ⟨request,stage⟩ ∧ (s.step (.advance i)).redis = (act s.redis request stage).1 ∧
      (s.step (.advance i)).calls.get? i = some ⟨request,(act s.redis request stage).2⟩ := by
  rw [step]
  cases held : s.calls.get? i with
  | none => exact Or.inl rfl
  | some call => exact Or.inr ⟨call.request,call.stage,rfl,rfl,Dict.get?_set_same _ _ _⟩

theorem Traced.linked_step (traced : s.Traced) (m : Move Device User Token) {user_code : User} {device_code : Device}
    (found : (s.step m).redis.usercodes.get? user_code = some device_code) : (s.step m).Created device_code user_code := by
  cases m with
  | arrive i request =>
    rw [arrive_redis] at found
    exact (traced.linked _ _ found).step _
  | advance i =>
    rcases advance_redis (s := s) i with same | ⟨request,stage,held,wrote,after⟩
    · rw [same] at found
      exact (traced.linked _ _ found).step _
    · rw [wrote] at found
      rcases act_usercodes found with old | ⟨provider_id,rfl⟩
      · exact (traced.linked _ _ old).step _
      · exact ⟨i,provider_id,_,after⟩
  | expire_code _ => exact (traced.linked _ _ found).step _
  | expire_usercode other =>
    change (s.redis.usercodes.erase other).get? user_code = _ at found
    rw [Dict.get?_erase] at found
    split at found
    · contradiction
    · exact (traced.linked _ _ found).step _

theorem Traced.walking_step (traced : s.Traced) (m : Move Device User Token) {i : Nat} {user_code : User} {session_token : Token}
    {stage : Stage Device Token} {device_code : Device} (found : (s.step m).calls.get? i = some ⟨.approve user_code session_token,stage⟩)
    (reached : stage.device_code = some device_code) : (s.step m).Created device_code user_code := by
  cases m with
  | arrive j request =>
    rcases arrive_get found with old | ⟨-,fresh,-⟩
    · exact (traced.walking _ _ _ _ _ old reached).step _
    · cases fresh
      contradiction
  | advance j =>
    rcases advance_get found with old | ⟨-,before,old,came,-⟩
    · exact (traced.walking _ _ _ _ _ old reached).step _
    · change stage = _ at came
      rw [came] at reached
      rcases act_device reached with kept | looked_up
      · exact (traced.walking _ _ _ _ _ old kept).step _
      · exact (traced.linked _ _ looked_up).step _
  | expire_code _ => exact (traced.walking _ _ _ _ _ found reached).step _
  | expire_usercode _ => exact (traced.walking _ _ _ _ _ found reached).step _

theorem Traced.stored_step (traced : s.Traced) (m : Move Device User Token) {device_code : Device} {record : Record Token}
    {session_token : Token} (found : (s.step m).redis.codes.get? device_code = some record)
    (holds : record.session_token = some session_token) : (s.step m).Stored device_code session_token := by
  cases m with
  | arrive i request =>
    rw [arrive_redis] at found
    exact (traced.stored _ _ _ found holds).step _
  | advance i =>
    rcases advance_redis (s := s) i with same | ⟨request,stage,held,wrote,after⟩
    · rw [same] at found
      exact (traced.stored _ _ _ found holds).step _
    · rw [wrote] at found
      rcases act_codes found holds with old | ⟨user_code,rfl,ended⟩
      · exact (traced.stored _ _ _ old holds).step _
      · rw [ended] at after
        exact ⟨i,user_code,after⟩
  | expire_code other =>
    change (s.redis.codes.erase other).get? device_code = _ at found
    rw [Dict.get?_erase] at found
    split at found
    · contradiction
    · exact (traced.stored _ _ _ found holds).step _
  | expire_usercode _ => exact (traced.stored _ _ _ found holds).step _

/-- Who has a session token after a step had it before, or is a poll that has just read an approved record. -/
theorem collects_step {m : Move Device User Token} {i : Nat} {device_code : Device} {session_token : Token}
    (collects : (s.step m).Collects i device_code session_token) : s.Collects i device_code session_token ∨
      m = .advance i ∧ s.calls.get? i = some ⟨.poll device_code,.start⟩ ∧ ∃ record, s.redis.codes.get? device_code = some record ∧
        record.status = .approved ∧ record.session_token = some session_token := by
  cases m with
  | arrive j request =>
    rcases collects with reading | returned
    · rcases arrive_get reading with old | ⟨-,fresh,-⟩
      · exact Or.inl (Or.inl old)
      · cases fresh
    · rcases arrive_get returned with old | ⟨-,fresh,-⟩
      · exact Or.inl (Or.inr old)
      · cases fresh
  | advance j =>
    rcases collects with reading | returned
    · rcases advance_get reading with old | ⟨rfl,stage,old,came,-⟩
      · exact Or.inl (Or.inl old)
      · obtain ⟨rfl,record,found,approved,holds⟩ := act_collecting came.symm
        exact Or.inr ⟨rfl,old,record,found,approved,holds⟩
    · rcases advance_get returned with old | ⟨rfl,stage,old,came,-⟩
      · exact Or.inl (Or.inr old)
      · rcases act_polled came.symm with rfl | ⟨rfl,-⟩
        · exact Or.inl (Or.inr old)
        · exact Or.inl (Or.inl old)
  | expire_code _ => exact Or.inl collects
  | expire_usercode _ => exact Or.inl collects

theorem Traced.taken_step (traced : s.Traced) (m : Move Device User Token) {i : Nat} {device_code : Device} {session_token : Token}
    (collects : (s.step m).Collects i device_code session_token) : (s.step m).Stored device_code session_token := by
  rcases collects_step collects with before | ⟨-,-,record,found,-,holds⟩
  · exact (traced.taken _ _ _ before).step _
  · exact (traced.stored _ _ _ found holds).step _

/-- A login ends once, so a token that was taken away from its record is not put back. -/
theorem Traced.gone_step (traced : s.Traced) (m : Move Device User Token) {i : Nat} {device_code : Device} {session_token : Token}
    {record : Record Token} (returned : (s.step m).Returned i device_code session_token)
    (found : (s.step m).redis.codes.get? device_code = some record) : record.session_token ≠ some session_token := by
  cases m with
  | arrive j request =>
    rw [arrive_redis] at found
    rcases arrive_get returned with old | ⟨-,fresh,-⟩
    · exact traced.gone _ _ _ _ old found
    · cases fresh
  | advance j =>
    rcases advance_get returned with old | ⟨rfl,stage,old,came,wrote⟩
    · rcases advance_redis (s := s) j with same | ⟨request,stage,held,wrote,-⟩
      · rw [same] at found
        exact traced.gone _ _ _ _ old found
      · rw [wrote] at found
        intro holds
        rcases act_codes found holds with before | ⟨user_code,rfl,ended⟩
        · exact traced.gone _ _ _ _ old before holds
        · obtain ⟨k,other,stored⟩ := traced.taken _ _ _ (Or.inr old)
          have same := traced.once _ _ _ _ _ _ _ held stored
          subst same
          rw [held] at stored
          cases stored
          rw [act_approved] at found
          exact traced.gone _ _ _ _ old found holds
    · rcases act_polled came.symm with rfl | ⟨rfl,erased⟩
      · rw [wrote] at found
        exact traced.gone _ _ _ _ old found
      · rw [wrote] at found
        change (act s.redis (.poll device_code) (.collecting (some session_token))).1.codes.get? device_code = _ at found
        rw [erased] at found
        contradiction
  | expire_code other =>
    change (s.redis.codes.erase other).get? device_code = _ at found
    rw [Dict.get?_erase] at found
    split at found
    · contradiction
    · exact traced.gone _ _ _ _ returned found
  | expire_usercode _ => exact traced.gone _ _ _ _ returned found

theorem Traced.step (m : Move Device User Token) (traced : s.Traced) : (s.step m).Traced where
  once _ _ _ _ _ _ _ found found' := traced.once_step m found found'
  linked _ _ found := traced.linked_step m found
  walking _ _ _ _ _ found reached := traced.walking_step m found reached
  stored _ _ _ found holds := traced.stored_step m found holds
  taken _ _ _ collects := traced.taken_step m collects
  gone _ _ _ _ returned found := traced.gone_step m returned found

omit [DecidableEq Token] in
theorem traced_empty : (empty : System Device User Token).Traced where
  once _ _ _ _ _ _ _ found _ := by simp [empty] at found
  linked _ _ found := by simp [empty] at found
  walking _ _ _ _ _ found _ := by simp [empty] at found
  stored _ _ _ found _ := by simp [empty] at found
  taken _ _ _ collects := by simp [Collects,Returned,empty] at collects
  gone _ _ _ _ returned _ := by simp [Returned,empty] at returned

/-- One step keeps every token to one poll exactly when it is no read between another poll's read and its delete. -/
theorem collected_once_iff (m : Move Device User Token) (traced : s.Traced) (once : s.CollectedOnce) :
    (s.step m).CollectedOnce ↔ s.Apart m := by
  constructor
  · intro after
    cases m with
    | advance i =>
      intro device_code record session_token found held approved holds j device_code' reading
      have collects : (s.step (.advance i)).Collects i device_code session_token := by
        refine Or.inl ?_
        rw [advance_moves found]
        simp [act,held,approved,holds]
      have other : (s.step (.advance i)).Collects j device_code' session_token := Collects.step (Or.inl reading) _
      have same := after _ _ _ _ _ collects other
      rw [← same,found] at reading
      cases reading
    | _ => trivial
  · intro apart i j device_code device_code' session_token collects collects'
    have reads {k l : Nat} {at_code other_code : Device} (before : s.Collects l other_code session_token)
        (moved : m = .advance k) (found : s.calls.get? k = some ⟨.poll at_code,.start⟩) {record : Record Token}
        (held : s.redis.codes.get? at_code = some record) (approved : record.status = .approved)
        (holds : record.session_token = some session_token) : False := by
      subst moved
      rcases before with reading | returned
      · exact apart _ _ _ found held approved holds _ _ reading
      · have same := traced.same_device (traced.taken _ _ _ (Or.inr returned)) (traced.stored _ _ _ held holds)
        subst same
        exact traced.gone _ _ _ _ returned held holds
    rcases collects_step collects with before | ⟨moved,found,record,held,approved,holds⟩
    · rcases collects_step collects' with before' | ⟨moved,found,record,held,approved,holds⟩
      · exact once _ _ _ _ _ before before'
      · exact (reads before moved found held approved holds).elim
    · rcases collects_step collects' with before' | ⟨moved',-,-⟩
      · exact (reads before' moved found held approved holds).elim
      · rw [moved] at moved'
        exact Move.advance.inj moved'

omit [DecidableEq Device] [DecidableEq User] [DecidableEq Token] in
theorem collected_returned (once : s.CollectedOnce) : s.ReturnedOnce :=
  fun i j device_code device_code' session_token returned returned' =>
    once i j device_code device_code' session_token (Or.inr returned) (Or.inr returned')

omit [DecidableEq Device] [DecidableEq User] [DecidableEq Token] in
theorem Idle.collected_iff (idle : s.Idle) : s.CollectedOnce ↔ s.ReturnedOnce := by
  refine ⟨collected_returned,fun once i j device_code device_code' session_token collects collects' => ?_⟩
  rcases collects with reading | returned
  · exact absurd reading (idle _ _ _)
  · rcases collects' with reading' | returned'
    · exact absurd reading' (idle _ _ _)
    · exact once _ _ _ _ _ returned returned'

omit [DecidableEq Token] in
theorem Traced.paired (traced : s.Traced) : s.Paired := by
  intro i device_code session_token returned
  obtain ⟨j,user_code,stored⟩ := traced.taken _ _ _ (Or.inr returned)
  exact ⟨user_code,traced.walking _ _ _ _ _ stored rfl,j,_,stored⟩

/-- Once two polls have collected one token they have it in every later state. -/
theorem collected_earlier (moves : List (Move Device User Token)) (once : (moves.foldl System.step s).CollectedOnce) :
    Runs.Always System.step CollectedOnce s moves := by
  intro before after split i j device_code device_code' session_token collects collects'
  subst split
  rw [List.foldl_append] at once
  have later {k : Nat} {at_code : Device} (collected : (before.foldl System.step s).Collects k at_code session_token) :
      (after.foldl System.step (before.foldl System.step s)).Collects k at_code session_token :=
    Runs.run_holds (I := fun t : System Device User Token => t.Collects k at_code session_token) (fun _ m held => held.step m) collected after
  exact once _ _ _ _ _ (later collects) (later collects')

/-- In every run the polls return each session token at most once if none reads an approved record between another's read
and its delete, and where no poll is under way only then; and always to the device whose user code was approved. -/
theorem single_use_iff (moves : List (Move Device User Token)) :
    (Runs.Every System.step Apart empty moves → Runs.Always System.step ReturnedOnce empty moves) ∧
    ((moves.foldl System.step empty).Idle →
      ((moves.foldl System.step empty).ReturnedOnce ↔ Runs.Every System.step Apart empty moves)) ∧
    Runs.Always System.step Paired empty moves := by
  have first : (empty : System Device User Token).CollectedOnce := fun i _ _ _ _ collects _ => by
    simp [Collects,Returned,empty] at collects
  have throughout : Runs.Always System.step CollectedOnce empty moves ↔ Runs.Every System.step Apart empty moves :=
    Runs.always_iff (I := Traced) (fun _ m traced => traced.step m) (fun _ m traced once => collected_once_iff m traced once)
      traced_empty first moves
  refine ⟨?_,?_,?_⟩
  · intro every before after split
    exact collected_returned (throughout.mpr every before after split)
  · intro idle
    rw [← idle.collected_iff,← throughout]
    constructor
    · exact collected_earlier moves
    · intro always
      exact always moves [] (List.append_nil _).symm
  · intro before after split
    exact (Runs.run_holds (fun _ m traced => Traced.step m traced) traced_empty before).paired

end System

/-- A terminal that sends its poll again before the first one has deleted the record. -/
def polled_twice : List (Move Nat Nat Nat) :=
  [.arrive 0 (.create "idp" 7 42),.advance 0,.advance 0,.arrive 1 (.approve 42 99),.advance 1,.advance 1,.advance 1,.advance 1,
    .arrive 2 (.poll 7),.arrive 3 (.poll 7),.advance 2,.advance 3,.advance 2,.advance 3]

theorem returned_twice : ¬Runs.Always System.step System.ReturnedOnce System.empty polled_twice := by
  intro always
  have once := always polled_twice [] rfl
  have same : 2 = 3 := once 2 3 7 7 99 rfl rfl
  contradiction

end AetherVault.DeviceFlow
