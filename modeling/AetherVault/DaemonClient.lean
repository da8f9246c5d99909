import AetherVault.Daemon

/-! The two clients of the daemon, the Python one and the native launcher: what they ask for, and what
they take for an answer. -/
namespace AetherVault.Daemon

open Lib Lib.JsonReader

/-- The process that asks, with what it has read of the daemon and the nonce it made up. -/
structure Client where
  cli_version : Text
  token : Text
  nonce : Text
  argv : List Text
  cwd : Text
  environ : Dict Text Text
  isatty_stdout : Bool
  isatty_stderr : Bool

def allowlisted_env (environ : Dict Text Text) : Dict Text Text := environ.filter fun name _ => allowlisted name

def build_request (client : Client) : Value :=
  .dict [(text "protocol",.integer PROTOCOL_VERSION),(text "cli_version",.text client.cli_version),
    (text "token",.text client.token),(text "nonce",.text client.nonce),
    (text "argv",.list (client.argv.map .text)),(text "cwd",.text client.cwd),
    (text "env",.dict ((allowlisted_env client.environ).entries.map fun entry => (entry.1,.text entry.2))),
    (text "isatty",.dict [(text "stdout",.boolean client.isatty_stdout),(text "stderr",.boolean client.isatty_stderr)]),
    (text "columns",.null)]

def Response.value : Response → Value
  | .error e => .dict [(text "protocol",.integer PROTOCOL_VERSION),(text "error",.text e)]
  | .ok mac output => .dict [(text "protocol",.integer PROTOCOL_VERSION),(text "server_nonce_mac",.text mac),
      (text "stdout",.text output.stdout),(text "stderr",.text output.stderr),(text "exit_code",.integer output.exit_code)]

/-- `argv` is checked by the client before anything is sent. -/
def eligible (client : Client) : Bool :=
  match is_allowed (.list (client.argv.map .text)) with
  | .ok allowed => allowed
  | .error _ => false

inductive Front
  | python
  | native
  deriving DecidableEq

/-- What becomes of a reply: the command counts as done, it is run another way, or the client dies. -/
inductive Verdict
  | done
  | fall_back
  | crash
  deriving DecidableEq

section Python

variable (py : Python)

/-- Every exception that a reply of the wrong types meets is taken for `None` by the caller. -/
def call_daemon_verdict (client : Client) (reply : Value) : Verdict :=
  match reply with
  | .dict members =>
    if (get members "error").any truthy then .fall_back
    else match py.str ((get members "server_nonce_mac").getD (.text [])) with
      | none => .fall_back
      | some mac => match compare_digest mac (hexdigest py client.token client.nonce) with
        | .ok true => .done
        | _ => .fall_back
  | _ => .fall_back

/-- The parser of the native launcher refuses a surrogate that stands alone. -/
def paired : Text → Bool
  | [] => true
  | [c] => !surrogate c
  | c::d::rest =>
    if surrogate c then (c < 0xdc00 && (0xdc00 ≤ d && d < 0xe000)) && paired rest
    else paired (d::rest)

mutual

def parses : Value → Bool
  | .text s => paired s
  | .list items => parses_items items
  | .dict members => parses_members members
  | _ => true

def parses_items : List Value → Bool
  | [] => true
  | value::rest => parses value && parses_items rest

def parses_members : List (Text × Value) → Bool
  | [] => true
  | (name,value)::rest => paired name && (parses value && parses_members rest)

end

/-- A field of another type than the one asked for ends the launcher. -/
def launcher_verdict (client : Client) (reply : Value) : Verdict :=
  if !parses reply then .fall_back
  else match reply with
    | .dict members =>
      match get members "error" with
      | some (.text _) => .fall_back
      | some _ => .crash
      | none => match (get members "server_nonce_mac").getD (.text []) with
        | .text mac => if mac = hexdigest py client.token client.nonce then .done else .fall_back
        | _ => .crash
    | _ => .crash

def verdict : Front → Client → Value → Verdict
  | .python => call_daemon_verdict py
  | .native => launcher_verdict py

end Python

/-! `av status`, where nothing is in the way. -/

def interpreter : Python where
  limits := ⟨1000,4300⟩
  rounding := Double.unrounded
  str value := match value with
    | .text s => some s
    | _ => none
  str_text _ := rfl
  hmac _ _ := List.replicate 32 0
  hmac_size _ _ := rfl

def fresh_server : Server where
  token := text "0b5e"
  cli_version := text "1.6.3"
  repo_root := text "/repo"
  environ := ∅
  cwd := text "/"
  self_check := none
  consecutive_errors := 0
  stopped := false
  requests_served := 0

def obliging_host : Host where
  stamps := []
  lock_free := true
  getcwd := none
  lookup _ := none
  chdir value := match value with
    | .text path => .ok path
    | _ => .error (text "chdir: path should be string")
  putenv _ _ := none
  go_back := none
  command _ := ⟨text "clean",[],.returned⟩

def plain_client : Client where
  cli_version := text "1.6.3"
  token := text "0b5e"
  nonce := text "7f"
  argv := [text "status"]
  cwd := text "/repo"
  environ := Dict.empty.set (text "HOME") (text "/home")
  isatty_stdout := true
  isatty_stderr := true

end AetherVault.Daemon
