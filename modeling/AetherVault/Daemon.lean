import AetherVault.Lib.JsonReader

/-! The daemon that runs commands for a thin client: its frames, what it checks of a request, how it
runs a command under the variables of the client, and how it takes connection after connection. -/
namespace AetherVault.Daemon

open Lib Lib.JsonReader

/-! What client and server share. -/

def PROTOCOL_VERSION : Int := 1

def MAX_FRAME_BYTES : Nat := 8 * 1024 * 1024

def MAX_CONSECUTIVE_INTERNAL_ERRORS : Nat := 3

def ALLOWED_COMMANDS : List Text :=
  ["add","status","commit","push","fetch","unstage","log","diff","context","run"].map text

def GLOBAL_FLAGS : List Text := ["--verbose","--silent","--version"].map text

def GLOBAL_VALUE_OPTS : List Text := [text "--output"]

def ENV_ALLOWLIST_PREFIXES : List Text := [text "AV_"]

def ENV_ALLOWLIST_EXACT : List Text := ["NO_COLOR","FORCE_COLOR","HOME","USERPROFILE","COLUMNS"].map text

def allowlisted (name : Text) : Bool :=
  ENV_ALLOWLIST_EXACT.contains name || ENV_ALLOWLIST_PREFIXES.any (·.isPrefixOf name)

/-- The exceptions that a request of the wrong types meets. -/
inductive Misuse
  | unhashable (dict : Bool)
  | no_startswith (type : String)
  | no_len (type : String)
  | no_items (type : String)
  | no_first
  | not_ascii
  | no_str

def Misuse.text : Misuse → String
  | .unhashable true => "unhashable type: 'dict'"
  | .unhashable false => "unhashable type: 'list'"
  | .no_startswith type => "'" ++ type ++ "' object has no attribute 'startswith'"
  | .no_len type => "object of type '" ++ type ++ "' has no len()"
  | .no_items type => "'" ++ type ++ "' object has no attribute 'items'"
  | .no_first => "0"
  | .not_ascii => "comparing strings with non-ASCII characters is not supported"
  | .no_str => "maximum recursion depth exceeded while getting the repr of an object"

def type_name : Value → String
  | .null => "NoneType"
  | .boolean _ => "bool"
  | .integer _ => "int"
  | .float _ => "float"
  | .text _ => "str"
  | .list _ => "list"
  | .dict _ => "dict"

def truthy : Value → Bool
  | .null => false
  | .boolean b => b
  | .integer n => n ≠ 0
  | .float x => x ≠ .finite 0
  | .text s => s ≠ []
  | .list items => !items.isEmpty
  | .dict members => !members.isEmpty

def equals (n : Int) : Value → Bool
  | .integer m => m = n
  | .boolean b => (if b then 1 else 0) = n
  | .float x => x = .finite n
  | _ => false

def is_text (s : Text) : Value → Bool
  | .text t => t = s
  | _ => false

def get (members : List (Text × Value)) (name : String) : Option Value := Dict.find members (text name)

def first_subcommand : List Value → Except Misuse (Option Text)
  | [] => .ok none
  | .text tok::rest =>
    if GLOBAL_FLAGS.contains tok then first_subcommand rest
    else if GLOBAL_VALUE_OPTS.contains tok then match rest with
      | [] => .ok none
      | _::more => first_subcommand more
    else if GLOBAL_VALUE_OPTS.any fun opt => (opt ++ text "=").isPrefixOf tok then first_subcommand rest
    else .ok (some tok)
  | .list _::_ => .error (.unhashable false)
  | .dict _::_ => .error (.unhashable true)
  | other::_ => .error (.no_startswith (type_name other))

/-- `argv` is looked at as any sequence is: a text by its characters, a dictionary by the key 0. -/
def is_allowed (argv : Value) : Except Misuse Bool :=
  if !truthy argv then .ok false
  else match argv with
    | .list items => (first_subcommand items).map fun first => first.any ALLOWED_COMMANDS.contains
    | .text s => (first_subcommand (s.map fun c => .text [c])).map fun first => first.any ALLOWED_COMMANDS.contains
    | .dict _ => .error .no_first
    | other => .error (.no_len (type_name other))

/-! Frames. -/

structure Output where
  stdout : Text
  stderr : Text
  exit_code : Int

inductive Response
  | error (text : Text)
  | ok (server_nonce_mac : Text) (output : Output)

def compact : JsonValue.Style := ⟨[],rfl⟩

def dumps (members : List (String × List Char)) : List Char :=
  '{'::JsonValue.joined compact (members.map fun member => quoted (text member.1) ++ ':'::member.2) ++ ['}']

def Response.dumps : Response → List Char
  | .error e => Daemon.dumps [("protocol",decimal PROTOCOL_VERSION),("error",quoted e)]
  | .ok mac output => Daemon.dumps [("protocol",decimal PROTOCOL_VERSION),("server_nonce_mac",quoted mac),
      ("stdout",quoted output.stdout),("stderr",quoted output.stderr),("exit_code",decimal output.exit_code)]

/-- What can be raised where a frame is read or written. `ProtocolError` and `OSError` are the kinds that
are looked out for. -/
inductive FrameError
  | protocol
  | os
  | recursion
  | digits
  deriving DecidableEq

def pack (n : Nat) : List UInt8 :=
  [UInt8.ofNat (n / 0x1000000),UInt8.ofNat (n / 0x10000),UInt8.ofNat (n / 0x100),UInt8.ofNat n]

def unpack (header : List UInt8) : Nat := header.foldl (fun n b => n * 0x100 + b.toNat) 0

def encode_frame (response : Response) : Except FrameError (List UInt8) :=
  let payload := response.dumps
  if MAX_FRAME_BYTES < payload.length then .error .protocol
  else .ok (pack payload.length ++ payload.map fun c => UInt8.ofNat c.toNat)

/-- What a peer sends, in the pieces it arrives in, and how it ends: closed or with an error of the system. -/
structure Stream where
  chunks : List (List UInt8)
  closed : Bool

def read_exact (closed : Bool) : List (List UInt8) → Nat → Except FrameError (List UInt8 × List (List UInt8))
  | chunks,0 => .ok ([],chunks)
  | [],_ => .error (if closed then .protocol else .os)
  | chunk::rest,n =>
    if chunk = [] then .error .protocol
    else if n < chunk.length then .ok (chunk.take n,chunk.drop n::rest)
    else (read_exact closed rest (n - chunk.length)).map fun more => (chunk ++ more.1,more.2)

def read_payload (stream : Stream) : Except FrameError (List UInt8) :=
  (read_exact stream.closed stream.chunks 4).bind fun header =>
  let length := unpack header.1
  if MAX_FRAME_BYTES < length then .error .protocol
  else (read_exact stream.closed header.2 length).map Prod.fst

section Python

/-- What differs from one interpreter to the next, and the hash it brings. -/
structure Python where
  limits : Limits
  rounding : Double.Rounding
  str : Value → Option Text
  str_text : ∀ s, str (.text s) = some s
  hmac : Text → Text → List UInt8
  hmac_size : ∀ key message, (hmac key message).length = 32

variable (py : Python)

def Python.loads (cs : List Char) : Except Fault Value := @JsonReader.loads py.rounding py.limits cs

def hexdigest (key message : Text) : Text := (hex (py.hmac key message)).map Char.toNat

def raised : Fault → FrameError
  | .decode => .protocol
  | .recursion => .recursion
  | .digits => .digits

def decode_frame (stream : Stream) : Except FrameError Value :=
  (read_payload stream).bind fun payload =>
    match decode_utf8 payload with
    | none => .error .protocol
    | some cs => (py.loads cs).mapError raised

/-! The server. -/

abbrev Stamps := List (Text × Option (Nat × Nat))

structure Server where
  token : Text
  cli_version : Text
  repo_root : Text
  environ : Dict Text Text
  cwd : Text
  self_check : Option Stamps
  consecutive_errors : Nat
  stopped : Bool
  requests_served : Nat

inductive ExitCode
  | none
  | integer (n : Int)
  | other

def ExitCode.number : ExitCode → Int
  | .none => 0
  | .integer n => n
  | .other => 1

/-- How a command comes back: it returns, exits, or raises. -/
inductive Ending
  | returned
  | system_exit (code : ExitCode)
  | click_exception (shown : Text) (exit_code : Int)
  | raised (text : Text)

structure Ended where
  stdout : Text
  stderr : Text
  ending : Ending

/-- What a command is run with. -/
structure Given where
  argv : Value
  cwd : Text
  environ : Dict Text Text

/-- What one request meets outside the server: the files it watches, the lock, the system, and the
command. Where the system refuses it gives the text of what is raised. -/
structure Host where
  stamps : Stamps
  lock_free : Bool
  getcwd : Option Text
  lookup : List Text → Option Text
  chdir : Value → Except Text Text
  putenv : Text → Text → Option Text
  go_back : Option Text
  command : Given → Ended

def set_variables (host : Host) : Dict Text Text → List (Text × Value) → Dict Text Text × Option Text
  | environ,[] => (environ,none)
  | environ,(name,.text value)::rest => match host.putenv name value with
    | some raised => (environ,some raised)
    | none => set_variables host (environ.set name value) rest
  | environ,(_,other)::_ => (environ,some (text ("str expected, not " ++ type_name other)))

def restore (environ : Dict Text Text) : List (Text × Option Text) → Dict Text Text
  | [] => environ
  | (name,none)::rest => restore (environ.erase name) rest
  | (name,some value)::rest => restore (environ.set name value) rest

def Ended.output (ended : Ended) : Except Text Output :=
  match ended.ending with
  | .returned => .ok ⟨ended.stdout,ended.stderr,0⟩
  | .system_exit code => .ok ⟨ended.stdout,ended.stderr,code.number⟩
  | .click_exception shown exit_code => .ok ⟨ended.stdout,ended.stderr ++ shown,exit_code⟩
  | .raised e => .error e

/-- The server after a request, what a command was run with if one was, and what came of it. -/
structure Handled (α : Type) where
  server : Server
  given : Option Given
  result : Except Text α

/-- The body of `_execute` between the working directory it leaves and the one it goes back to. -/
def run_command (host : Host) (server : Server) (argv cwd : Value) (env_overlay : List (Text × Value)) : Handled Output :=
  match host.chdir cwd with
  | .error e => ⟨server,none,.error e⟩
  | .ok directory =>
    let updated := set_variables host server.environ env_overlay
    let here := {server with cwd := directory, environ := updated.1}
    match updated.2 with
    | some e => ⟨here,none,.error e⟩
    | none =>
      let given : Given := ⟨argv,directory,updated.1⟩
      ⟨here,some given,(host.command given).output⟩

def env_overlay (members : List (Text × Value)) : Except Misuse (List (Text × Value)) :=
  let env := (get members "env").getD .null
  let serving := (text "AV_DAEMON_SERVING",Value.text (text "1"))
  if !truthy env then .ok [serving]
  else match env with
    | .dict env => .ok (Dict.assign (env.filter fun member => allowlisted member.1) serving.1 serving.2)
    | other => .error (.no_items (type_name other))

def requested_cwd (server : Server) (members : List (Text × Value)) : Value :=
  let cwd := (get members "cwd").getD .null
  if truthy cwd then cwd else .text server.repo_root

def surrogate (c : Nat) : Bool := 0xd800 ≤ c && c < 0xe000

/-- The text of the exception that a text which no UTF-8 stands for is encoded with. -/
def encode_error (s : Text) : Text :=
  let start := s.findIdx surrogate
  let run := ((s.drop start).takeWhile surrogate).length
  let place := Nat.toDigits 10 start
  let at_place := if run ≤ 1 then " '\\u".toList ++ JsonValue.hex4 ((s.drop start).headD 0) ++ "' in position ".toList ++ place
    else "s in position ".toList ++ place ++ '-'::Nat.toDigits 10 (start + run - 1)
  ("'utf-8' codec can't encode character".toList ++ at_place ++ ": surrogates not allowed".toList).map Char.toNat

def nonce_mac (server : Server) (members : List (Text × Value)) : Except Text Text :=
  match py.str ((get members "nonce").getD (.text [])) with
  | none => .error (text Misuse.no_str.text)
  | some nonce => if nonce.any surrogate then .error (encode_error nonce) else .ok (hexdigest py server.token nonce)

def _execute (host : Host) (server : Server) (members : List (Text × Value)) : Handled Response :=
  let argv := (get members "argv").getD .null
  match env_overlay members with
  | .error misuse => ⟨server,none,.error (text misuse.text)⟩
  | .ok overlay =>
    match host.getcwd.or (host.lookup (overlay.map Prod.fst)) with
    | some e => ⟨server,none,.error e⟩
    | none =>
      let old_env := overlay.map fun member => (member.1,server.environ.get? member.1)
      let run := run_command host server argv (requested_cwd server members) overlay
      match host.go_back with
      | some e => ⟨run.server,run.given,.error e⟩
      | none =>
        let back := {run.server with cwd := server.cwd, environ := restore run.server.environ old_env}
        match run.result with
        | .error e => ⟨back,run.given,.error e⟩
        | .ok output => match nonce_mac py server members with
          | .error e => ⟨back,run.given,.error e⟩
          | .ok mac => ⟨back,run.given,.ok (.ok mac output)⟩

def _version_drifted (host : Host) (server : Server) : Bool × Server :=
  match server.self_check with
  | none => (false,{server with self_check := some host.stamps})
  | some stamps => (stamps ≠ host.stamps,server)

def compare_digest (a b : Text) : Except Misuse Bool :=
  if (a ++ b).all (· < 0x80) then .ok (a = b) else .error .not_ascii

/-- What is checked of a request before the lock is asked for: the error it is refused with, or nothing. -/
def check_request (host : Host) (server : Server) (request : Value) : Except Misuse (Option String) × Server :=
  match request with
  | .dict members =>
    if !((get members "protocol").any (equals PROTOCOL_VERSION)) then (.ok (some "version_skew"),server)
    else match py.str ((get members "token").getD (.text [])) with
      | none => (.error .no_str,server)
      | some token => match compare_digest token server.token with
        | .error misuse => (.error misuse,server)
        | .ok false => (.ok (some "auth_failed"),server)
        | .ok true =>
          if !((get members "cli_version").any (is_text server.cli_version)) then (.ok (some "version_skew"),server)
          else
            let drifted := _version_drifted host server
            if drifted.1 then (.ok (some "version_skew"),drifted.2)
            else match is_allowed ((get members "argv").getD .null) with
              | .error misuse => (.error misuse,drifted.2)
              | .ok false => (.ok (some "not_allowed"),drifted.2)
              | .ok true => if host.lock_free then (.ok none,drifted.2) else (.ok (some "busy"),drifted.2)
  | _ => (.ok (some "version_skew"),server)

def internal (e : Text) : Response := .error (text "internal: " ++ e)

def members_of : Value → List (Text × Value)
  | .dict members => members
  | _ => []

def handle_request (host : Host) (server : Server) (request : Value) : Handled Response :=
  let checked := check_request py host server request
  match checked.1 with
  | .error misuse => ⟨checked.2,none,.error (text misuse.text)⟩
  | .ok (some refused) => ⟨checked.2,none,.ok (.error (text refused))⟩
  | .ok none =>
    let done := _execute py host {checked.2 with requests_served := checked.2.requests_served + 1} (members_of request)
    match done.result with
    | .ok response => ⟨{done.server with consecutive_errors := 0},done.given,.ok response⟩
    | .error e =>
      let errors := done.server.consecutive_errors + 1
      ⟨{done.server with consecutive_errors := errors,
                         stopped := done.server.stopped || MAX_CONSECUTIVE_INTERNAL_ERRORS ≤ errors},
        done.given,.ok (internal e)⟩

/-! What a request changes. -/

/-- The checks note the files they have seen, and nothing else. -/
theorem checked_server (host : Host) (server : Server) (request : Value) :
    (check_request py host server request).2 = server ∨
    (check_request py host server request).2 = {server with self_check := some host.stamps} := by
  have drifted : (_version_drifted host server).2 = server ∨
      (_version_drifted host server).2 = {server with self_check := some host.stamps} := by
    unfold _version_drifted
    cases server.self_check <;> simp
  unfold check_request
  split <;> grind

/-- A request leaves what the checks leave, or what its execution does. -/
theorem handle_request_cases (host : Host) (server : Server) (request : Value) :
    let checked := (check_request py host server request).2
    let handled := handle_request py host server request
    let done := _execute py host {checked with requests_served := checked.requests_served + 1} (members_of request)
    (handled.server = checked ∧ handled.given = none) ∨
    (handled.given = done.given ∧ handled.server.environ = done.server.environ ∧ handled.server.cwd = done.server.cwd) := by
  intro checked handled done
  simp only [handled,handle_request]
  cases verdict : (check_request py host server request).1 with
  | error misuse => exact .inl ⟨rfl,rfl⟩
  | ok refused =>
    cases refused with
    | some refused => exact .inl ⟨rfl,rfl⟩
    | none =>
      right
      simp only [done,checked]
      split <;> exact ⟨rfl,rfl,rfl⟩

/-- A client that connects, what the request meets, and whether the answer can be written to it. -/
structure Connection where
  stream : Stream
  host : Host
  writable : Bool

/-- The server after a connection, the response it sent, and what was raised out of it. -/
structure Served where
  server : Server
  given : Option Given
  sent : Option Response
  leaked : Option FrameError

/-- An exception that `handle_request` raises is answered too. -/
def answer (result : Except Text Response) : Response :=
  match result with
  | .ok response => response
  | .error e => internal e

/-- A request is handled and the response sent, where a frame holds it. -/
def respond (server : Server) (host : Host) (writable : Bool) (request : Value) : Served :=
  let handled := handle_request py host server request
  match encode_frame (answer handled.result) with
  | .error leaked => ⟨handled.server,handled.given,none,some leaked⟩
  | .ok _ => ⟨handled.server,handled.given,if writable then some (answer handled.result) else none,none⟩

def _serve_connection (server : Server) (conn : Connection) : Served :=
  match decode_frame py conn.stream with
  | .error .protocol => ⟨server,none,none,none⟩
  | .error .os => ⟨server,none,none,none⟩
  | .error other => ⟨server,none,none,some other⟩
  | .ok request => respond py server conn.host conn.writable request

/-! The accept loop. -/

/-- One turn of the loop: whether the repository is gone or the server idle too long, and the client
that connects within the second, if any. -/
structure Turn where
  gone : Bool
  idle : Bool
  client : Option Connection

def should_stop (server : Server) (turn : Turn) : Bool := server.stopped || turn.gone || turn.idle

inductive LoopEnd
  | serving
  | stopped
  | died (leaked : FrameError)
  deriving DecidableEq

def run_posix : Server → List Turn → Server × LoopEnd
  | server,[] => (server,.serving)
  | server,turn::rest =>
    if should_stop server turn then (server,.stopped)
    else match turn.client with
      | none => run_posix server rest
      | some conn =>
        let served := _serve_connection py server conn
        match served.leaked with
        | some leaked => (served.server,.died leaked)
        | none => run_posix served.server rest

end Python

end AetherVault.Daemon
