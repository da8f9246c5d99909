import AetherVault.DaemonSurvival

/-! How often a command is run that goes through the daemon: by the daemon for each request that reaches
it, and by the client itself where no front end has had an answer. -/
namespace AetherVault.Daemon

open Lib Lib.JsonReader

/-- A request that the daemon has been sent whole: it waits, or the daemon is done with it and may have
replied. -/
inductive Stage
  | waiting
  | done (reply : Option Response)

structure Call where
  front : Front
  client : Client
  stage : Stage

/-- One invocation: the front ends that are not tried yet, the calls made, the last one first, whether
the client waits for an answer to it, and how often the command has been run. -/
structure Invocation where
  server : Server
  fronts : List Front
  calls : List Call
  listening : Bool
  runs : Nat
  local_runs : Nat
  finished : Bool

def start (server : Server) (fronts : List Front) : Invocation := ⟨server,fronts,[],false,0,0,false⟩

inductive Event
  | unreachable
  | stranger (client : Client) (reply : Value)
  | send (client : Client)
  | serve (i : Nat) (host : Host) (writable : Bool)
  | lose (i : Nat)
  | elsewhere (conn : Connection)
  | hear (printable : Bool)
  | give_up
  | run_in_process

section Python

variable (py : Python)

/-- The client takes an answer for the end of the command, unless it cannot print what is in it. -/
def hear_reply (s : Invocation) (call : Call) (reply : Response) (printable : Bool) : Invocation :=
  match verdict py call.front call.client reply.value with
  | .done => if printable || call.front = .native then {s with listening := false, finished := true} else {s with listening := false}
  | .crash => {s with listening := false, finished := true}
  | .fall_back => {s with listening := false}

/-- The Python client gives up waiting after a time, the launcher when the connection is closed. -/
def may_give_up (call : Call) : Bool :=
  call.front = .python || match call.stage with
    | .done none => true
    | _ => false

def step (s : Invocation) : Event → Option Invocation
  | .unreachable => match s.fronts with
    | _::rest => if s.listening || s.finished then none else some {s with fronts := rest}
    | [] => none
  | .stranger client reply => match s.fronts with
    | front::rest =>
      if s.listening || s.finished || !eligible client || verdict py front client reply ≠ .fall_back then none
      else some {s with fronts := rest}
    | [] => none
  | .send client => match s.fronts with
    | front::rest =>
      if s.listening || s.finished || !eligible client then none
      else some {s with fronts := rest, calls := ⟨front,client,.waiting⟩::s.calls, listening := true}
    | [] => none
  | .serve i host writable => match s.calls[i]? with
    | some ⟨front,client,.waiting⟩ =>
      let served := respond py s.server host writable (build_request client)
      some {s with server := served.server, calls := s.calls.set i ⟨front,client,.done served.sent⟩,
                   runs := s.runs + if served.given.isSome then 1 else 0}
    | _ => none
  | .lose i => match s.calls[i]? with
    | some ⟨front,client,.waiting⟩ => some {s with calls := s.calls.set i ⟨front,client,.done none⟩}
    | _ => none
  | .elsewhere conn => some {s with server := (_serve_connection py s.server conn).server}
  | .hear printable => match s.listening,s.calls with
    | true,⟨front,client,.done (some reply)⟩::_ => some (hear_reply py s ⟨front,client,.done (some reply)⟩ reply printable)
    | _,_ => none
  | .give_up => match s.listening,s.calls with
    | true,call::_ => if may_give_up call then some {s with listening := false} else none
    | _,_ => none
  | .run_in_process =>
    if s.fronts.isEmpty && !s.listening && !s.finished then
      some {s with local_runs := s.local_runs + 1, finished := true}
    else none

def run (s : Invocation) : List Event → Option Invocation
  | [] => some s
  | event::rest => (step py s event).bind fun t => run t rest

/-- The daemon comes to run the command: the request is accepted and nothing fails before. -/
def Runs (host : Host) (server : Server) (members : List (Text × Value)) : Prop :=
  ∃ overlay directory, env_overlay members = .ok overlay ∧ host.getcwd = none ∧
    host.lookup (overlay.map Prod.fst) = none ∧ host.chdir (requested_cwd server members) = .ok directory ∧
    (set_variables host server.environ overlay).2 = none

/-- The command comes back with something that is sent and that the client can read. -/
def Answers (front : Front) (host : Host) (writable : Bool) (server : Server) (members : List (Text × Value)) : Prop :=
  ∃ output, outcome py host server members = .ok output ∧ reply_size (.ok output) ≤ MAX_FRAME_BYTES ∧
    writable = true ∧ (front = .native → paired output.stdout = true ∧ paired output.stderr = true)

/-- The daemon runs the command only for the request whose answer the client waits for, and the answer
comes, is heard and can be printed. -/
def Careful (s : Invocation) : Event → Prop
  | .serve i host writable => ∀ call, s.calls[i]? = some call →
      Accepted py host s.server (build_request call.client) → Runs host s.server (members_of (build_request call.client)) →
      s.listening = true ∧ i = 0 ∧ Answers py call.front host writable s.server (members_of (build_request call.client))
  | .hear printable => ∀ call rest mac output, s.calls = call::rest → call.stage = .done (some (.ok mac output)) →
      call.front = .python → printable = true
  | .give_up => s.runs = 0
  | _ => True

def AllCareful (s : Invocation) : List Event → Prop
  | [] => True
  | event::rest => Careful py s event ∧ ∀ t, step py s event = some t → AllCareful t rest

/-! What `respond` comes to. -/

/-- The server that a command finds. -/
def begun (host : Host) (server : Server) (request : Value) : Server :=
  let checked := (check_request py host server request).2
  {checked with requests_served := checked.requests_served + 1}

theorem begun_fields (host : Host) (server : Server) (request : Value) :
    (begun py host server request).environ = server.environ ∧ (begun py host server request).repo_root = server.repo_root ∧
    (begun py host server request).token = server.token := by
  obtain unchanged | noted := checked_server py host server request
  · simp [begun,unchanged]
  · simp [begun,noted]

theorem run_command_given_iff (host : Host) (server : Server) (argv cwd : Value) (overlay : List (Text × Value)) :
    (run_command host server argv cwd overlay).given.isSome = true ↔
      ∃ directory, host.chdir cwd = .ok directory ∧ (set_variables host server.environ overlay).2 = none := by
  unfold run_command
  cases host.chdir cwd with
  | error e => simp
  | ok directory =>
    simp only
    cases (set_variables host server.environ overlay).2 <;> simp

theorem execute_given_eq {host : Host} {server : Server} {members overlay : List (Text × Value)}
    (overlaid : env_overlay members = .ok overlay) (before : host.getcwd.or (host.lookup (overlay.map Prod.fst)) = none) :
    (_execute py host server members).given =
      (run_command host server ((get members "argv").getD .null) (requested_cwd server members) overlay).given := by
  unfold _execute
  simp only [overlaid,before]
  split
  · rfl
  · split
    · rfl
    · split <;> rfl

theorem execute_given_iff (host : Host) (server : Server) (members : List (Text × Value)) :
    (_execute py host server members).given.isSome = true ↔ Runs host server members := by
  constructor
  · intro given
    cases overlaid : env_overlay members with
    | error misuse => simp [_execute,overlaid] at given
    | ok overlay =>
      cases before : host.getcwd.or (host.lookup (overlay.map Prod.fst)) with
      | some e => simp [_execute,overlaid,before] at given
      | none =>
        rw [execute_given_eq py overlaid before,run_command_given_iff] at given
        obtain ⟨directory,entered,set⟩ := given
        obtain ⟨got,looked⟩ := Option.or_eq_none_iff.mp before
        exact ⟨overlay,directory,overlaid,got,looked,entered,set⟩
  · intro runs
    obtain ⟨overlay,directory,overlaid,got,looked,entered,set⟩ := runs
    rw [execute_given_eq py overlaid (Option.or_eq_none_iff.mpr ⟨got,looked⟩),run_command_given_iff]
    exact ⟨directory,entered,set⟩

theorem runs_eq {host : Host} {server other : Server} {members : List (Text × Value)}
    (environ : other.environ = server.environ) (root : other.repo_root = server.repo_root) :
    Runs host other members ↔ Runs host server members := by
  have cwd : requested_cwd other members = requested_cwd server members := by rw [requested_cwd,requested_cwd,root]
  unfold Runs
  rw [environ,cwd]

/-- An outcome that is output is the output of a command that was run. -/
theorem runs_of_outcome {host : Host} {server : Server} {members : List (Text × Value)} {output : Output}
    (ending : outcome py host server members = .ok output) : Runs host server members := by
  unfold outcome at ending
  unfold Runs
  cases overlaid : env_overlay members with
  | error misuse => simp [overlaid] at ending
  | ok overlay =>
    simp only [overlaid] at ending
    cases got : host.getcwd with
    | some e => simp [got] at ending
    | none =>
      cases looked : host.lookup (overlay.map Prod.fst) with
      | some e => simp [got,looked] at ending
      | none =>
        cases back : host.go_back with
        | some e => simp [got,looked,back] at ending
        | none =>
          simp only [got,looked,back,Option.or_none] at ending
          unfold run_command at ending
          cases entered : host.chdir (requested_cwd server members) with
          | error e => simp [entered,Except.bind] at ending
          | ok directory =>
            simp only [entered] at ending
            cases set : (set_variables host server.environ overlay).2 with
            | some e => simp [set,Except.bind] at ending
            | none => exact ⟨overlay,directory,rfl,rfl,looked,rfl,set⟩

section Respond

variable {host : Host} {server : Server} {writable : Bool} {client : Client}

theorem accepted_token {request : Value} (accepted : Accepted py host server request) :
    ∃ members token, request = .dict members ∧ py.str ((get members "token").getD (.text [])) = some token ∧
      token = server.token := by
  unfold Accepted check_request at accepted
  split at accepted
  · rename_i members
    split at accepted
    · simp at accepted
    · cases read : py.str ((get members "token").getD (.text [])) with
      | none => simp [read] at accepted
      | some token =>
        cases compared : compare_digest token server.token with
        | error misuse => simp [read,compared] at accepted
        | ok same =>
          cases same with
          | false => simp [read,compared] at accepted
          | true =>
            refine ⟨members,token,rfl,read,?_⟩
            unfold compare_digest at compared
            split at compared
            · simpa using compared
            · contradiction
  · simp at accepted

theorem accepted_client_token (accepted : Accepted py host server (build_request client)) : client.token = server.token := by
  obtain ⟨members,token,same,read,rfl⟩ := accepted_token py accepted
  obtain rfl : members_of (build_request client) = members := by rw [same]; rfl
  have sent : get (members_of (build_request client)) "token" = some (.text client.token) := by
    simp [members_of,build_request,get,Dict.find,text]
  rw [sent,Option.getD_some,py.str_text] at read
  exact Option.some.inj read

theorem handled_given_iff (request : Value) :
    (handle_request py host server request).given.isSome = true ↔
      Accepted py host server request ∧ Runs host server (members_of request) := by
  obtain ⟨environ,root,-⟩ := begun_fields py host server request
  have runs : Runs host (begun py host server request) (members_of request) ↔ Runs host server (members_of request) :=
    runs_eq environ root
  rw [← runs,← execute_given_iff py]
  unfold Accepted handle_request
  cases checked : (check_request py host server request).1 with
  | error misuse => simp [checked]
  | ok refused =>
    cases refused with
    | some refused => simp [checked]
    | none =>
      simp only [checked,true_and]
      split <;> rfl

/-- The response is one of success when the command was run and came back with output. -/
theorem handled_ok_iff (request : Value) (mac : Text) (output : Output) :
    (handle_request py host server request).result = .ok (.ok mac output) ↔
      Accepted py host server request ∧ outcome py host server (members_of request) = .ok output ∧
      nonce_mac py server (members_of request) = .ok mac := by
  obtain ⟨environ,root,token⟩ := begun_fields py host server request
  have ending : outcome py host (begun py host server request) (members_of request) =
      outcome py host server (members_of request) := outcome_eq py environ root
  have signed : nonce_mac py (begun py host server request) (members_of request) = nonce_mac py server (members_of request) := by
    unfold nonce_mac
    rw [token]
  have executed := execute_result py host (begun py host server request) (members_of request)
  rw [ending,signed] at executed
  unfold Accepted handle_request
  cases checked : (check_request py host server request).1 with
  | error misuse => simp [checked]
  | ok refused =>
    cases refused with
    | some refused => simp [checked]
    | none =>
      simp only [checked,true_and]
      rw [begun] at executed
      obtain ⟨printed,digest,ended,mac_is,result⟩ | ⟨e,ended,result⟩ := executed
      · simp only [result,ended,mac_is,Except.ok.injEq,Response.ok.injEq]
        exact and_comm
      · simp [result,ended,internal]

end Respond

/-! What the clients make of a response. -/

theorem hexdigest_ascii (key message : Text) : ∀ c ∈ hexdigest py key message, c < 0x80 := by
  intro c member
  obtain ⟨d,listed,rfl⟩ := List.mem_map.mp member
  obtain ⟨b,-,digit⟩ := List.mem_flatMap.mp listed
  have small {n : Nat} (bound : n < 16) : n.digitChar.toNat < 0x80 := by interval_cases n <;> decide
  have bound : b.toNat < 256 := b.toNat_lt
  simp only [hex_pair,List.mem_cons,List.not_mem_nil,or_false] at digit
  obtain rfl | rfl := digit
  · exact small (by omega)
  · exact small (by omega)

theorem compare_digest_ascii {a b : Text} (first : ∀ c ∈ a, c < 0x80) (second : ∀ c ∈ b, c < 0x80) :
    compare_digest a b = .ok (a = b) := by
  have ascii : (a ++ b).all (· < 0x80) = true := by
    simp only [List.all_eq_true,List.mem_append,decide_eq_true_eq]
    intro c member
    exact member.elim (first c) (second c)
  rw [compare_digest,if_pos ascii]

theorem paired_ascii {s : Text} (ascii : ∀ c ∈ s, c < 0x80) : paired s = true := by
  induction s using paired.induct with
  | case1 => rfl
  | case2 c =>
    have small := ascii c List.mem_cons_self
    simp [paired,surrogate]
    omega
  | case3 c d rest high =>
    have small := ascii c List.mem_cons_self
    simp [surrogate] at high
    omega
  | case4 c d rest plain ih =>
    rw [paired,if_neg plain]
    exact ih fun e member => ascii e (List.mem_cons_of_mem c member)

theorem verdict_error (front : Front) (client : Client) (e : Text) :
    verdict py front client (Response.error e).value = .fall_back := by
  have field : get [(text "protocol",.integer PROTOCOL_VERSION),(text "error",.text e)] "error" = some (.text e) := by
    simp [get,Dict.find,text]
  have no_mac : get [(text "protocol",.integer PROTOCOL_VERSION),(text "error",.text e)] "server_nonce_mac" = none := by
    simp [get,Dict.find,text]
  cases front with
  | python =>
    have differ : ([] : Text) ≠ hexdigest py client.token client.nonce := by
      intro same
      have size := hexdigest_length py client.token client.nonce
      rw [← same] at size
      contradiction
    have compared := compare_digest_ascii (a := []) (by simp) (hexdigest_ascii py client.token client.nonce)
    simp only [verdict,call_daemon_verdict,Response.value,field,no_mac,Option.getD_none,py.str_text,compared,differ,
      decide_false]
    split <;> rfl
  | native =>
    simp only [verdict,launcher_verdict,Response.value,field]
    split <;> rfl

theorem verdict_ok (front : Front) (client : Client) (output : Output) :
    verdict py front client (Response.ok (hexdigest py client.token client.nonce) output).value =
      if front = .native ∧ ¬(paired output.stdout = true ∧ paired output.stderr = true) then .fall_back else .done := by
  have ascii := hexdigest_ascii py client.token client.nonce
  have names : paired (text "protocol") = true ∧ paired (text "server_nonce_mac") = true ∧ paired (text "stdout") = true ∧
      paired (text "stderr") = true ∧ paired (text "exit_code") = true := by decide
  obtain ⟨protocol,mac,out,err,code⟩ := names
  cases front with
  | python => 
    have compared := compare_digest_ascii ascii ascii
    simp [verdict,call_daemon_verdict,Response.value,get,Dict.find,text,py.str_text,compared]
  | native =>
    have parsed : parses (Response.ok (hexdigest py client.token client.nonce) output).value =
        (paired output.stdout && paired output.stderr) := by
      simp [Response.value,parses,parses_members,protocol,mac,out,err,code,paired_ascii ascii]
    have no_error : get (members_of (Response.ok (hexdigest py client.token client.nonce) output).value) "error" = none := by
      simp [Response.value,members_of,get,Dict.find,text]
    have mac : get (members_of (Response.ok (hexdigest py client.token client.nonce) output).value) "server_nonce_mac" =
        some (.text (hexdigest py client.token client.nonce)) := by
      simp [Response.value,members_of,get,Dict.find,text]
    have fields : launcher_verdict py client (Response.ok (hexdigest py client.token client.nonce) output).value =
        if paired output.stdout && paired output.stderr then .done else .fall_back := by
      unfold launcher_verdict
      rw [parsed]
      simp only [Response.value,members_of] at no_error mac ⊢
      rw [no_error,mac]
      cases paired output.stdout <;> cases paired output.stderr <;> simp
    rw [verdict,fields]
    cases paired output.stdout <;> cases paired output.stderr <;> rfl

/-! What the daemon's work on a request adds. -/

section Respond

variable {host : Host} {server : Server} {writable : Bool} {client : Client}

theorem respond_given : (respond py server host writable (build_request client)).given.isSome = true ↔
    Accepted py host server (build_request client) ∧ Runs host server (members_of (build_request client)) := by
  rw [← handled_given_iff]
  unfold respond
  simp only
  split <;> rfl

/-- A response of success carries the output of a command that was run, under the digest that its client
expects. -/
theorem respond_ok {mac : Text} {output : Output}
    (sent : (respond py server host writable (build_request client)).sent = some (.ok mac output)) :
    Accepted py host server (build_request client) ∧ outcome py host server (members_of (build_request client)) = .ok output ∧
    mac = hexdigest py client.token client.nonce ∧ reply_size (.ok output) ≤ MAX_FRAME_BYTES ∧ writable = true := by
  unfold respond at sent
  simp only at sent
  cases framed : encode_frame (answer (handle_request py host server (build_request client)).result) with
  | error leaked => simp [framed] at sent
  | ok bytes =>
    simp only [framed,Option.ite_none_right_eq_some,Option.some.injEq] at sent
    obtain ⟨written,replied⟩ := sent
    have result : (handle_request py host server (build_request client)).result = .ok (.ok mac output) := by
      cases result : (handle_request py host server (build_request client)).result with
      | error e => simp [answer,result,internal] at replied
      | ok response => simpa [answer,result] using replied
    obtain ⟨accepted,ending,signed⟩ := (handled_ok_iff py _ mac output).mp result
    obtain ⟨nonce,read,rfl⟩ := nonce_mac_eq py signed
    have made_up : get (members_of (build_request client)) "nonce" = some (.text client.nonce) := by
      simp [members_of,build_request,get,Dict.find,text]
    rw [made_up,Option.getD_some,py.str_text] at read
    obtain rfl := Option.some.inj read
    have small : ¬MAX_FRAME_BYTES < (Response.ok (hexdigest py server.token client.nonce) output).dumps.length := by
      rw [← encode_frame_leaks_iff,← replied,framed]
      simp
    rw [dumps_ok_length,Nat.not_lt] at small
    exact ⟨accepted,ending,by rw [accepted_client_token py accepted],small,written⟩

/-- A command that comes back with output which is sent is answered for. -/
theorem respond_answers {front : Front} (accepted : Accepted py host server (build_request client))
    (answers : Answers py front host writable server (members_of (build_request client))) :
    ∃ reply, (respond py server host writable (build_request client)).sent = some reply ∧
      verdict py front client reply.value = .done := by
  obtain ⟨output,ending,small,written,readable⟩ := answers
  obtain ⟨other,mac,ended,signed,-⟩ | ⟨e,failed,-⟩ := execute_result py host server (members_of (build_request client))
  · have result := (handled_ok_iff py (build_request client) mac output).mpr ⟨accepted,ending,signed⟩
    have made_up : get (members_of (build_request client)) "nonce" = some (.text client.nonce) := by
      simp [members_of,build_request,get,Dict.find,text]
    obtain ⟨nonce,read,rfl⟩ := nonce_mac_eq py signed
    rw [made_up,Option.getD_some,py.str_text] at read
    obtain rfl := Option.some.inj read
    cases framed : encode_frame (Response.ok (hexdigest py server.token client.nonce) output) with
    | error leaked =>
      have large := (encode_frame_leaks_iff _).mp ⟨leaked,framed⟩
      rw [dumps_ok_length] at large
      omega
    | ok bytes =>
      refine ⟨.ok (hexdigest py server.token client.nonce) output,?_,?_⟩
      · simp [respond,result,answer,framed,written]
      · rw [← accepted_client_token py accepted,verdict_ok,if_neg]
        exact fun bad => bad.2 (readable bad.1)
  · rw [ending] at failed
    contradiction

end Respond

/-! The count of an invocation: the runs so far, with one more to come while the client has no answer. -/

def replied (call : Call) : Bool :=
  match call.stage with
  | .done (some reply) => verdict py call.front call.client reply.value = .done
  | _ => false

def answered (s : Invocation) : Bool := s.listening && s.calls.head?.any (replied py)

def spent (s : Invocation) : Nat := s.runs + s.local_runs + if s.finished || answered py s then 0 else 1

theorem spent_bounds (s : Invocation) : s.runs + s.local_runs ≤ spent py s ∧ spent py s ≤ s.runs + s.local_runs + 1 := by
  unfold spent
  split <;> omega

/-- Every response of success is to a request whose command was run. -/
structure Sane (s : Invocation) : Prop where
  genuine : ∀ call ∈ s.calls, ∀ reply, call.stage = .done (some reply) → (∃ e, reply = .error e) ∨
    1 ≤ s.runs ∧ ∃ output, reply = .ok (hexdigest py call.client.token call.client.nonce) output
  quiet : s.finished = true → s.listening = false
  counted : s.finished = true → 1 ≤ s.runs + s.local_runs

/-- What the step of an event comes to. -/
structure Spends (s t : Invocation) (careful : Prop) : Prop where
  sane : Sane py t
  same : careful → spent py t = spent py s
  twice : ¬careful → 2 ≤ spent py t
  grows : spent py s ≤ spent py t

variable {py} {s t : Invocation}

theorem Sane.runs_of_replied (sane : Sane py s) {call : Call} (member : call ∈ s.calls) (done : replied py call = true) :
    1 ≤ s.runs := by
  unfold replied at done
  split at done
  · rename_i reply stage
    obtain ⟨e,rfl⟩ | ⟨ran,-⟩ := sane.genuine call member reply stage
    · simp [verdict_error] at done
    · exact ran
  · contradiction

theorem Sane.runs_of_answered (sane : Sane py s) (heard : answered py s = true) : 1 ≤ s.runs := by
  simp only [answered,Bool.and_eq_true,Option.any_eq_true] at heard
  obtain ⟨-,call,first,done⟩ := heard
  exact sane.runs_of_replied (List.mem_of_head? first) done

theorem spent_closed (closed : s.finished = true ∨ answered py s = true) : spent py s = s.runs + s.local_runs := by
  simp [spent,closed]

theorem spent_open (going : s.finished = false) (silent : answered py s = false) :
    spent py s = s.runs + s.local_runs + 1 := by
  simp [spent,going,silent]

theorem Sane.going_of_listening (sane : Sane py s) (listening : s.listening = true) : s.finished = false := by
  by_contra finished
  simp [sane.quiet (by simpa using finished)] at listening

theorem Spends.of_same {careful : Prop} (holds : careful) (sane : Sane py t) (same : spent py t = spent py s) :
    Spends py s t careful := ⟨sane,fun _ => same,fun bad => absurd holds bad,same.ge⟩

theorem Sane.mono (sane : Sane py s) {calls : List Call} {runs : Nat} (more : s.runs ≤ runs) {server : Server}
    {fronts : List Front} {listening : Bool} (quiet : s.finished = true → listening = false)
    (genuine : ∀ call ∈ calls, ∀ reply, call.stage = .done (some reply) → call ∈ s.calls ∨ (∃ e, reply = .error e) ∨
      1 ≤ runs ∧ ∃ output, reply = .ok (hexdigest py call.client.token call.client.nonce) output) :
    Sane py {s with server := server, fronts := fronts, calls := calls, listening := listening, runs := runs} where
  genuine call member reply done := by
    obtain old | here := genuine call member reply done
    · obtain error | ⟨ran,ok⟩ := sane.genuine call old reply done
      · exact .inl error
      · exact .inr ⟨ran.trans more,ok⟩
    · exact here
  quiet := quiet
  counted finished := (sane.counted finished).trans (Nat.add_le_add_right more s.local_runs)

theorem replied_of_sent {host : Host} {server : Server} {writable : Bool} {front : Front} {client : Client}
    (done : replied py ⟨front,client,.done (respond py server host writable (build_request client)).sent⟩ = true) :
    Accepted py host server (build_request client) ∧ Runs host server (members_of (build_request client)) ∧
    Answers py front host writable server (members_of (build_request client)) := by
  unfold replied at done
  split at done
  · rename_i reply stage
    simp only [Stage.done.injEq] at stage
    cases reply with
    | error e => simp [verdict_error] at done
    | ok mac output =>
      obtain ⟨accepted,ending,rfl,small,written⟩ := respond_ok py stage
      simp only [verdict_ok,decide_eq_true_eq] at done
      refine ⟨accepted,runs_of_outcome py ending,output,ending,small,written,fun native => ?_⟩
      by_contra unreadable
      rw [if_pos ⟨native,unreadable⟩] at done
      contradiction
  · contradiction

theorem replied_of_answers {host : Host} {server : Server} {writable : Bool} {front : Front} {client : Client}
    (accepted : Accepted py host server (build_request client))
    (answers : Answers py front host writable server (members_of (build_request client))) :
    replied py ⟨front,client,.done (respond py server host writable (build_request client)).sent⟩ = true := by
  obtain ⟨reply,sent,done⟩ := respond_answers py accepted answers
  rw [sent]
  simpa [replied] using done

theorem head?_set_later {calls : List Call} {i : Nat} (later : i ≠ 0) (x : Call) : (calls.set i x).head? = calls.head? := by
  obtain ⟨j,rfl⟩ := Nat.exists_eq_succ_of_ne_zero later
  cases calls <;> rfl

theorem head?_of_first {calls : List Call} {i : Nat} {x : Call} (found : calls[i]? = some x) (first : i = 0) (y : Call) :
    calls.head? = some x ∧ (calls.set i y).head? = some y := by
  subst first
  cases calls with
  | nil => simp at found
  | cons call rest => simpa using found

theorem spends_serve (sane : Sane py s) {i : Nat} {host : Host} {writable : Bool} {front : Front} {client : Client}
    (found : s.calls[i]? = some ⟨front,client,.waiting⟩) :
    let served := respond py s.server host writable (build_request client)
    Spends py s {s with
      server := served.server
      calls := s.calls.set i ⟨front,client,.done served.sent⟩
      runs := s.runs + if served.given.isSome then 1 else 0} (Careful py s (.serve i host writable)) := by
  intro served
  obtain ⟨t,shape⟩ : ∃ t, t = {s with
      server := served.server
      calls := s.calls.set i ⟨front,client,.done served.sent⟩
      runs := s.runs + if served.given.isSome then 1 else 0} := ⟨_,rfl⟩
  have fields : t.finished = s.finished ∧ t.listening = s.listening ∧ t.local_runs = s.local_runs ∧
      t.calls = s.calls.set i ⟨front,client,.done served.sent⟩ ∧ t.runs = s.runs + if served.given.isSome then 1 else 0 := by
    simp [shape]
  obtain ⟨finished,listening,local_runs,calls,counted⟩ := fields
  have sane' : Sane py t := by
    rw [shape]
    refine sane.mono (Nat.le_add_right _ _) sane.quiet fun call member reply done => ?_
    obtain old | rfl := List.mem_or_eq_of_mem_set member
    · exact .inl old
    · right
      simp only [Stage.done.injEq] at done
      cases reply with
      | error e => exact .inl ⟨e,rfl⟩
      | ok mac output =>
        obtain ⟨accepted,ending,rfl,-⟩ := respond_ok py done
        have ran : served.given.isSome = true := (respond_given py).mpr ⟨accepted,runs_of_outcome py ending⟩
        exact .inr ⟨by simp [ran],output,rfl⟩
  rw [← shape]
  have bounds := spent_bounds py s
  have bounds' := spent_bounds py t
  have waits : i = 0 → answered py s = false := fun first => by
    simp [answered,(head?_of_first found first ⟨front,client,.waiting⟩).1,replied]
  by_cases ran : served.given.isSome = true
  · rw [if_pos ran] at counted
    obtain ⟨accepted,runs⟩ := (respond_given py).mp ran
    refine ⟨sane',fun careful => ?_,fun careless => ?_,by omega⟩
    · -- The client waits for just this answer, and it comes.
      obtain ⟨listens,first,answers⟩ := careful _ found accepted runs
      have now : answered py t = true := by
        rw [answered,calls,(head?_of_first found first _).2,listening,listens]
        exact replied_of_answers accepted answers
      rw [spent_closed (.inr now),spent_open (sane.going_of_listening listens) (waits first)]
      omega
    · by_cases closed : s.finished = true
      · have before := sane.counted closed
        omega
      · by_cases heard : answered py t = true
        · simp only [answered,calls,listening,Bool.and_eq_true] at heard
          obtain ⟨listens,heard⟩ := heard
          by_cases first : i = 0
          · rw [(head?_of_first found first _).2] at heard
            obtain ⟨-,-,answers⟩ := replied_of_sent heard
            refine absurd (fun call same _ _ => ?_) careless
            obtain rfl := Option.some.inj (found.symm.trans same)
            exact ⟨listens,first,answers⟩
          · rw [head?_set_later first] at heard
            have before := sane.runs_of_answered (show answered py s = true by simp [answered,listens,heard])
            omega
        · rw [spent_open (finished.trans (by simpa using closed)) (by simpa using heard)]
          omega
  · rw [if_neg ran] at counted
    have unheard : answered py t = answered py s := by
      by_cases first : i = 0
      · rw [waits first,answered,calls,(head?_of_first found first _).2]
        have silent : replied py ⟨front,client,.done served.sent⟩ = false := by
          by_contra done
          obtain ⟨accepted,runs,-⟩ := replied_of_sent (by simpa using done)
          exact ran ((respond_given py).mpr ⟨accepted,runs⟩)
        simp [silent]
      · rw [answered,calls,head?_set_later first,listening,answered]
    refine .of_same (fun call same accepted runs => ?_) sane' ?_
    · obtain rfl := Option.some.inj (found.symm.trans same)
      exact absurd ((respond_given py).mpr ⟨accepted,runs⟩) ran
    · rw [spent,spent,unheard,finished,local_runs,counted,Nat.add_zero]

theorem spends_lose (sane : Sane py s) {i : Nat} {front : Front} {client : Client}
    (found : s.calls[i]? = some ⟨front,client,.waiting⟩) :
    Spends py s {s with calls := s.calls.set i ⟨front,client,.done none⟩} (Careful py s (.lose i)) := by
  refine .of_same trivial (sane.mono le_rfl sane.quiet fun call member reply done => ?_) ?_
  · obtain old | rfl := List.mem_or_eq_of_mem_set member
    · exact .inl old
    · simp at done
  · have unheard : answered py {s with calls := s.calls.set i ⟨front,client,.done none⟩} = answered py s := by
      unfold answered
      by_cases first : i = 0
      · simp [head?_of_first found first ⟨front,client,.done none⟩,replied]
      · simp only [head?_set_later first]
    rw [spent,spent,unheard]

theorem spends_hear (sane : Sane py s) (listens : s.listening = true) {call : Call} {rest : List Call} {reply : Response}
    (calls : s.calls = call::rest) (done : call.stage = .done (some reply)) (printable : Bool) :
    Spends py s (hear_reply py s call reply printable) (Careful py s (.hear printable)) := by
  have going := sane.going_of_listening listens
  have here := sane.genuine call (by simp [calls]) reply done
  have first : s.calls.head? = some call := by simp [calls]
  have same : answered py s = decide (verdict py call.front call.client reply.value = .done) := by
    rw [answered,first,listens,Option.any_some,replied,done]
    rfl
  have closed (finished : Bool) (ran : finished = true → 1 ≤ s.runs) :
      Sane py {s with listening := false, finished := finished} :=
    ⟨sane.genuine,fun _ => rfl,fun ended => (ran ended).trans (Nat.le_add_right _ _)⟩
  have silent (finished : Bool) : answered py {s with listening := false, finished := finished} = false := rfl
  obtain ⟨e,rfl⟩ | ⟨ran,output,rfl⟩ := here
  · rw [hear_reply,verdict_error]
    rw [verdict_error] at same
    have still : {s with listening := false} = {s with listening := false, finished := false} := by rw [← going]
    simp only [still]
    refine .of_same ?_ (closed false (by simp)) ?_
    · intro other more mac output shape stage _
      obtain ⟨rfl,-⟩ := List.cons.inj (calls.symm.trans shape)
      rw [done] at stage
      simp at stage
    · rw [spent_open rfl (silent false),spent_open going (by simpa using same)]
  · have still : {s with listening := false} = {s with listening := false, finished := false} := by rw [← going]
    have readable := verdict_ok py call.front call.client output
    by_cases unreadable : call.front = .native ∧ ¬(paired output.stdout = true ∧ paired output.stderr = true)
    · -- The launcher cannot read the answer. It runs the command again.
      rw [if_pos unreadable] at readable
      simp only [hear_reply,readable,still]
      rw [readable] at same
      have twice : spent py {s with listening := false, finished := false} = s.runs + s.local_runs + 1 :=
        spent_open rfl (silent false)
      have before := spent_open going (by simpa using same)
      exact ⟨closed false (by simp),fun _ => by omega,fun _ => by omega,by omega⟩
    · rw [if_neg unreadable] at readable
      rw [readable] at same
      have before : spent py s = s.runs + s.local_runs := spent_closed (.inr (by simpa using same))
      by_cases prints : (printable || decide (call.front = .native)) = true
      · simp only [hear_reply,readable,prints,if_true]
        have after : spent py {s with listening := false, finished := true} = s.runs + s.local_runs := spent_closed (.inl rfl)
        refine .of_same ?_ (closed true fun _ => ran) (after.trans before.symm)
        intro other more mac output shape stage python
        obtain ⟨rfl,-⟩ := List.cons.inj (calls.symm.trans shape)
        simpa [python] using prints
      · simp only [hear_reply,readable,prints,still]
        have after : spent py {s with listening := false, finished := false} = s.runs + s.local_runs + 1 :=
          spent_open rfl (silent false)
        simp only [Bool.or_eq_true,decide_eq_true_eq,not_or] at prints
        have python : call.front = .python := by
          cases front : call.front with
          | python => rfl
          | native => exact absurd front prints.2
        refine ⟨closed false (by simp),fun careful => ?_,fun _ => ?_,?_⟩
        · exact absurd (careful call rest _ output calls done python) prints.1
        · simp only [Bool.false_eq_true,if_false]
          omega
        · simp only [Bool.false_eq_true,if_false]
          omega

theorem spends_give_up (sane : Sane py s) (listens : s.listening = true) :
    Spends py s {s with listening := false} (Careful py s .give_up) := by
  have going := sane.going_of_listening listens
  have after : spent py {s with listening := false} = s.runs + s.local_runs + 1 := spent_open going rfl
  have bounds := spent_bounds py s
  refine ⟨⟨sane.genuine,fun _ => rfl,sane.counted⟩,fun unheard => ?_,fun heard => ?_,by omega⟩
  · have silent : answered py s = false := by
      by_contra heard
      have ran := sane.runs_of_answered (by simpa using heard)
      have none_ran : s.runs = 0 := unheard
      omega
    rw [after,spent_open going silent]
  · have ran : s.runs ≠ 0 := heard
    omega

/-- A front end that is not answered, for whatever reason, leaves the count as it is. -/
theorem spends_next (sane : Sane py s) (quiet : s.listening = false) (going : s.finished = false) (fronts : List Front) :
    Sane py {s with fronts := fronts} ∧ spent py {s with fronts := fronts} = spent py s := by
  have silent (fronts : List Front) : answered py {s with fronts := fronts} = false := by simp [answered,quiet]
  refine ⟨⟨sane.genuine,sane.quiet,sane.counted⟩,?_⟩
  exact (spent_open going (silent fronts)).trans (spent_open going (silent s.fronts)).symm

theorem step_spends (sane : Sane py s) {event : Event} (stepped : step py s event = some t) :
    Spends py s t (Careful py s event) := by
  cases event with
  | unreachable =>
    simp only [step] at stepped
    split at stepped
    · split at stepped
      · contradiction
      · rename_i idle
        obtain rfl := Option.some.inj stepped
        simp only [Bool.or_eq_true,not_or,Bool.not_eq_true] at idle
        obtain ⟨sane',same⟩ := spends_next sane idle.1 idle.2 _
        exact .of_same trivial sane' same
    · contradiction
  | stranger client reply =>
    simp only [step] at stepped
    split at stepped
    · split at stepped
      · contradiction
      · rename_i idle
        obtain rfl := Option.some.inj stepped
        simp only [Bool.or_eq_true,not_or,Bool.not_eq_true] at idle
        obtain ⟨sane',same⟩ := spends_next sane idle.1.1.1 idle.1.1.2 _
        exact .of_same trivial sane' same
    · contradiction
  | send client =>
    simp only [step] at stepped
    split at stepped
    · rename_i front rest fronts
      split at stepped
      · contradiction
      · rename_i idle
        obtain rfl := Option.some.inj stepped
        simp only [Bool.or_eq_true,not_or,Bool.not_eq_true] at idle
        refine .of_same trivial (sane.mono le_rfl (fun finished => ?_) fun call member reply done => ?_) ?_
        · rw [idle.1.2] at finished
          contradiction
        · obtain rfl | old := List.mem_cons.mp member
          · simp at done
          · exact .inl old
        · have before : spent py s = s.runs + s.local_runs + 1 := spent_open idle.1.2 (by simp [answered,idle.1.1])
          rw [before]
          exact spent_open idle.1.2 (by simp [answered,replied])
    · contradiction
  | serve i host writable =>
    simp only [step] at stepped
    split at stepped
    · obtain rfl := Option.some.inj stepped
      exact spends_serve sane ‹_›
    · contradiction
  | lose i =>
    simp only [step] at stepped
    split at stepped
    · obtain rfl := Option.some.inj stepped
      exact spends_lose sane ‹_›
    · contradiction
  | elsewhere conn =>
    obtain rfl := Option.some.inj stepped
    exact .of_same trivial ⟨sane.genuine,sane.quiet,sane.counted⟩ rfl
  | hear printable =>
    simp only [step] at stepped
    split at stepped
    · rename_i listens calls
      obtain rfl := Option.some.inj stepped
      exact spends_hear sane listens calls rfl printable
    · contradiction
  | give_up =>
    simp only [step] at stepped
    split at stepped
    · rename_i listens calls
      split at stepped
      · obtain rfl := Option.some.inj stepped
        exact spends_give_up sane listens
      · contradiction
    · contradiction
  | run_in_process =>
    simp only [step] at stepped
    split at stepped
    · rename_i idle
      obtain rfl := Option.some.inj stepped
      simp only [Bool.and_eq_true,Bool.not_eq_true'] at idle
      refine .of_same trivial ⟨sane.genuine,fun _ => idle.1.2,fun _ => Nat.le_add_left 1 _⟩ ?_
      have before : spent py s = s.runs + s.local_runs + 1 := spent_open idle.2 (by simp [answered,idle.1.2])
      rw [before]
      exact spent_closed (.inl rfl)
    · contradiction

/-- Over a run the count stays at one as long as every step is careful, and never comes back to it. -/
theorem run_spends {events : List Event} (sane : Sane py s) (ran : run py s events = some t) :
    Sane py t ∧ spent py s ≤ spent py t ∧ (spent py s = 1 → (AllCareful py s events ↔ spent py t = 1)) := by
  induction events generalizing s with
  | nil =>
    obtain rfl := Option.some.inj ran
    exact ⟨sane,le_rfl,fun one => by simp [AllCareful,one]⟩
  | cons event rest ih =>
    simp only [run,Option.bind_eq_some_iff] at ran
    obtain ⟨u,stepped,later⟩ := ran
    have spends := step_spends sane stepped
    obtain ⟨sane',grows,careful_iff⟩ := ih spends.sane later
    refine ⟨sane',spends.grows.trans grows,fun one => ?_⟩
    have unfolded : AllCareful py s (event::rest) ↔ Careful py s event ∧ AllCareful py u rest := by
      simp [AllCareful,stepped]
    rw [unfolded]
    by_cases careful : Careful py s event
    · rw [and_iff_right careful]
      exact careful_iff ((spends.same careful).trans one)
    · have twice := spends.twice careful
      constructor
      · intro both
        exact absurd both.1 careful
      · intro ended
        omega

end Python

end AetherVault.Daemon
