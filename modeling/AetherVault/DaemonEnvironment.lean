import AetherVault.DaemonClient

/-! Under which variables the daemon runs a command, and that it has its own back afterwards. -/
namespace AetherVault.Daemon

open Lib Lib.JsonReader

/-! Setting variables and putting them back. -/

def as_text : Value → Option Text
  | .text s => some s
  | _ => none

theorem set_variables_get? {host : Host} {environ : Dict Text Text} {overlay : List (Text × Value)}
    (distinct : (overlay.map Prod.fst).Nodup) (set : (set_variables host environ overlay).2 = none) (name : Text) :
    (set_variables host environ overlay).1.get? name = ((Dict.find overlay name).bind as_text).or (environ.get? name) := by
  induction overlay generalizing environ with
  | nil => rfl
  | cons member rest ih =>
    obtain ⟨first,value⟩ := member
    simp only [List.map_cons,List.nodup_cons] at distinct
    cases value with
    | text s =>
      simp only [set_variables] at set ⊢
      cases put : host.putenv first s with
      | some raised => simp [put] at set
      | none =>
        simp only [put] at set ⊢
        rw [ih distinct.2 set,Dict.get?_set]
        by_cases same : name = first
        · subst same
          simp [Dict.find,Dict.find_none_of_absent rest name distinct.1,as_text]
        · simp [Dict.find,same,Ne.symm same]
    | null => contradiction
    | boolean b => contradiction
    | integer n => contradiction
    | float x => contradiction
    | list items => contradiction
    | dict members => contradiction

theorem set_variables_other (host : Host) (environ : Dict Text Text) (overlay : List (Text × Value)) {name : Text}
    (other : name ∉ overlay.map Prod.fst) : (set_variables host environ overlay).1.get? name = environ.get? name := by
  induction overlay generalizing environ with
  | nil => rfl
  | cons member rest ih =>
    obtain ⟨first,value⟩ := member
    simp only [List.map_cons,List.mem_cons,not_or] at other
    cases value with
    | text s =>
      simp only [set_variables]
      cases host.putenv first s with
      | some raised => rfl
      | none =>
        simp only
        rw [ih _ other.2,Dict.get?_set_other _ _ _ _ other.1]
    | null => rfl
    | boolean b => rfl
    | integer n => rfl
    | float x => rfl
    | list items => rfl
    | dict members => rfl

/-- Each variable that was noted has its value back, the others are as they are found. -/
theorem restore_get? (before environ : Dict Text Text) (overlay : List (Text × Value)) (name : Text) :
    (restore environ (overlay.map fun member => (member.1,before.get? member.1))).get? name =
      if name ∈ overlay.map Prod.fst then before.get? name else environ.get? name := by
  induction overlay generalizing environ with
  | nil => rfl
  | cons member rest ih =>
    have put_back : (restore environ ((member::rest).map fun member => (member.1,before.get? member.1))).get? name =
        if name ∈ rest.map Prod.fst then before.get? name
        else if name = member.1 then before.get? name else environ.get? name := by
      rw [List.map_cons]
      cases held : before.get? member.1 with
      | none =>
        rw [restore,ih,Dict.get?_erase]
        grind
      | some value =>
        rw [restore,ih,Dict.get?_set]
        grind
    rw [put_back]
    grind

/-! One request. -/

/-- The variables and the working directory are what they were. -/
structure Kept (before after : Server) : Prop where
  environ : ∀ name, after.environ.get? name = before.environ.get? name
  cwd : after.cwd = before.cwd

theorem Kept.refl (server : Server) : Kept server server := ⟨fun _ => rfl,rfl⟩

theorem Kept.trans {a b c : Server} (first : Kept a b) (later : Kept b c) : Kept a c where
  environ name := (later.environ name).trans (first.environ name)
  cwd := later.cwd.trans first.cwd

theorem run_command_other (host : Host) (server : Server) (argv cwd : Value) (overlay : List (Text × Value)) (name : Text)
    (other : name ∉ overlay.map Prod.fst) :
    (run_command host server argv cwd overlay).server.environ.get? name = server.environ.get? name := by
  unfold run_command
  cases host.chdir cwd with
  | error e => rfl
  | ok directory =>
    simp only
    split
    · exact set_variables_other host server.environ overlay other
    · exact set_variables_other host server.environ overlay other

section Python

variable (py : Python)

theorem execute_keeps {host : Host} (returns : host.go_back = none) (server : Server) (members : List (Text × Value)) :
    Kept server (_execute py host server members).server := by
  unfold _execute
  cases env_overlay members with
  | error misuse => exact Kept.refl server
  | ok overlay =>
    simp only
    cases host.getcwd.or (host.lookup (overlay.map Prod.fst)) with
    | some e => exact Kept.refl server
    | none =>
      simp only [returns]
      have back (run : Server) (frame : ∀ name, name ∉ overlay.map Prod.fst → run.environ.get? name = server.environ.get? name) :
          Kept server {run with
            cwd := server.cwd
            environ := restore run.environ (overlay.map fun member => (member.1,server.environ.get? member.1))} := by
        refine ⟨fun name => ?_,rfl⟩
        simp only [restore_get?]
        split
        · rfl
        · exact frame name ‹_›
      have frame := run_command_other host server ((get members "argv").getD .null) (requested_cwd server members) overlay
      split
      · exact back _ frame
      · split
        · exact back _ frame
        · exact back _ frame

theorem check_request_keeps (host : Host) (server : Server) (request : Value) :
    Kept server (check_request py host server request).2 := by
  obtain unchanged | noted := checked_server py host server request
  · rw [unchanged]
    exact Kept.refl server
  · rw [noted]
    exact ⟨fun _ => rfl,rfl⟩

theorem handle_request_keeps {host : Host} (returns : host.go_back = none) (server : Server) (request : Value) :
    Kept server (handle_request py host server request).server := by
  have checked := check_request_keeps py host server request
  obtain ⟨turned_away,-⟩ | ⟨-,environ,cwd⟩ := handle_request_cases py host server request
  · rw [turned_away]
    exact checked
  · have done := execute_keeps py returns {(check_request py host server request).2 with
      requests_served := (check_request py host server request).2.requests_served + 1} (members_of request)
    refine checked.trans ⟨fun name => ?_,cwd.trans done.cwd⟩
    rw [environ]
    exact done.environ name

/-! What a command is given. -/

theorem run_command_given {host : Host} {server : Server} {argv cwd : Value} {overlay : List (Text × Value)} {given : Given}
    (run : (run_command host server argv cwd overlay).given = some given) :
    (set_variables host server.environ overlay).2 = none ∧ given.environ = (set_variables host server.environ overlay).1 := by
  unfold run_command at run
  cases entered : host.chdir cwd with
  | error e => simp [entered] at run
  | ok directory =>
    simp only [entered] at run
    cases set : (set_variables host server.environ overlay).2 with
    | some e => simp [set] at run
    | none =>
      simp only [set,Option.some.injEq] at run
      exact ⟨rfl,run ▸ rfl⟩

theorem execute_given {host : Host} {server : Server} {members overlay : List (Text × Value)} {given : Given}
    (overlaid : env_overlay members = .ok overlay) (distinct : (overlay.map Prod.fst).Nodup)
    (run : (_execute py host server members).given = some given) (name : Text) :
    given.environ.get? name = ((Dict.find overlay name).bind as_text).or (server.environ.get? name) := by
  have ran : (run_command host server ((get members "argv").getD .null) (requested_cwd server members) overlay).given =
      some given := by
    unfold _execute at run
    simp only [overlaid] at run
    grind
  obtain ⟨set,same⟩ := run_command_given ran
  rw [same]
  exact set_variables_get? distinct set name

/-- The variables that the daemon takes over from a client, with its own marker. -/
theorem env_overlay_client (client : Client) :
    env_overlay (members_of (build_request client)) =
      .ok (Dict.assign ((allowlisted_env client.environ).entries.map fun entry => (entry.1,Value.text entry.2))
        (text "AV_DAEMON_SERVING") (.text (text "1"))) := by
  have env : get (members_of (build_request client)) "env" =
      some (.dict ((allowlisted_env client.environ).entries.map fun entry => (entry.1,.text entry.2))) := by
    simp [members_of,build_request,get,Dict.find,text]
  have kept : ((allowlisted_env client.environ).entries.map fun entry => (entry.1,Value.text entry.2)).filter
      (fun member => allowlisted member.1) =
      (allowlisted_env client.environ).entries.map fun entry => (entry.1,Value.text entry.2) := by
    rw [List.filter_eq_self]
    intro member listed
    obtain ⟨entry,held,rfl⟩ := List.mem_map.mp listed
    exact (List.mem_filter.mp held).2
  simp only [env_overlay,env,Option.getD_some,kept]
  cases entries : (allowlisted_env client.environ).entries <;> simp [truthy,Dict.assign]

theorem find_texts (entries : List (Text × Text)) (name : Text) :
    Dict.find (entries.map fun entry => (entry.1,Value.text entry.2)) name = (Dict.find entries name).map .text := by
  induction entries with
  | nil => rfl
  | cons entry rest ih =>
    simp only [List.map_cons,Dict.find,ih]
    split <;> rfl

/-! A run of requests. -/

def handle_requests (server : Server) : List (Host × Value) → Server
  | [] => server
  | (host,request)::rest => handle_requests (handle_request py host server request).server rest

theorem handle_requests_keeps {requests : List (Host × Value)} (returns : ∀ request ∈ requests, request.1.go_back = none)
    (server : Server) : Kept server (handle_requests py server requests) := by
  induction requests generalizing server with
  | nil => exact Kept.refl server
  | cons request rest ih =>
    have first := handle_request_keeps py (returns request List.mem_cons_self) server request.2
    exact first.trans (ih (fun other member => returns other (List.mem_cons_of_mem request member)) _)

/-- Whatever was asked before, a command is run under the variables that the client sets, and under no
others that are passed on unless the daemon was started with them. Its own variables and its working
directory the daemon has back afterwards. -/
theorem environment_isolated (server : Server) (earlier : List (Host × Value))
    (returns : ∀ request ∈ earlier, request.1.go_back = none) (host : Host) (client : Client) :
    let found := handle_requests py server earlier
    let handled := handle_request py host found (build_request client)
    Kept server found ∧ (host.go_back = none → Kept server handled.server) ∧
    ∀ given, handled.given = some given →
      given.environ.get? (text "AV_DAEMON_SERVING") = some (text "1") ∧
      ∀ name, allowlisted name = true → name ≠ text "AV_DAEMON_SERVING" →
        client.environ.contains name = true ∨ server.environ.get? name = none →
        given.environ.get? name = client.environ.get? name := by
  intro found handled
  have kept := handle_requests_keeps py returns server
  refine ⟨kept,fun back => kept.trans (handle_request_keeps py back found _),fun given run => ?_⟩
  obtain ⟨-,none_given⟩ | ⟨same,-,-⟩ := handle_request_cases py host found (build_request client)
  · exact absurd (run.symm.trans none_given) (by simp)
  have distinct : ((Dict.assign ((allowlisted_env client.environ).entries.map fun entry => (entry.1,Value.text entry.2))
      (text "AV_DAEMON_SERVING") (.text (text "1"))).map Prod.fst).Nodup := by
    apply Dict.assign_distinct
    rw [List.map_map]
    exact (allowlisted_env client.environ).distinct
  have sees := execute_given py (env_overlay_client client) distinct (same.symm.trans run)
  have before name : (check_request py host found (build_request client)).2.environ.get? name = server.environ.get? name :=
    ((check_request_keeps py host found (build_request client)).environ name).trans (kept.environ name)
  have client_env name : Dict.find (allowlisted_env client.environ).entries name =
      (client.environ.get? name).filter fun _ => allowlisted name := Dict.get?_filter client.environ _ name
  refine ⟨?_,?_⟩
  · rw [sees,Dict.find_assign]
    simp [as_text]
  · intro name passed other set
    rw [sees,Dict.find_assign,if_neg other,find_texts,client_env]
    simp only [before]
    cases held : client.environ.get? name with
    | some value => simp [passed,Option.filter,as_text]
    | none =>
      simp only [Dict.contains,held] at set
      simpa [as_text] using set

end Python

theorem environment_isolated_home :
    let found := handle_requests interpreter fresh_server [(obliging_host,build_request plain_client)]
    let handled := handle_request interpreter obliging_host found (build_request plain_client)
    Kept fresh_server handled.server ∧
    ∀ given, handled.given = some given → given.environ.get? (text "HOME") = some (text "/home") := by
  have isolated := environment_isolated interpreter fresh_server [(obliging_host,build_request plain_client)]
    (by simp [obliging_host]) obliging_host plain_client
  refine ⟨isolated.2.1 rfl,fun given run => ?_⟩
  exact (isolated.2.2 given run).2 (text "HOME") (by decide) (by decide) (by decide)

/-- The daemon's marker is set for a command whose client does not set it. -/
theorem marker_seen :
    (handle_request interpreter obliging_host fresh_server (build_request plain_client)).given.map
      (fun given => given.environ.get? (text "AV_DAEMON_SERVING")) = some (some (text "1")) ∧
    plain_client.environ.get? (text "AV_DAEMON_SERVING") = none ∧ allowlisted (text "AV_DAEMON_SERVING") = true := by
  decide +kernel

end AetherVault.Daemon
