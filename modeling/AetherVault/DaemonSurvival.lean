import AetherVault.DaemonClient

/-! What a client can do to the daemon: which connections the accept loop survives. -/
namespace AetherVault.Daemon

open Lib Lib.JsonReader

/-! The size of an answer. -/

theorem quoted_length (s : Text) : (quoted s).length = (s.flatMap escaped).length + 2 := by simp [quoted]

theorem escaped_hex_digit {n : Nat} (small : n < 16) : escaped n.digitChar.toNat = [n.digitChar] := by
  interval_cases n <;> decide

theorem escaped_hex (bytes : List UInt8) : ((hex bytes).map Char.toNat).flatMap escaped = hex bytes := by
  induction bytes with
  | nil => rfl
  | cons b rest ih =>
    have bound : b.toNat < 256 := b.toNat_lt
    have high := escaped_hex_digit (show b.toNat / 16 < 16 by omega)
    have low := escaped_hex_digit (show b.toNat % 16 < 16 by omega)
    have unfolded : hex (b::rest) = (b.toNat / 16).digitChar::(b.toNat % 16).digitChar::hex rest := rfl
    simp [unfolded,high,low,ih]

theorem hex_length (bytes : List UInt8) : (hex bytes).length = 2 * bytes.length := by
  induction bytes with
  | nil => rfl
  | cons b rest ih =>
    have unfolded : hex (b::rest) = (b.toNat / 16).digitChar::(b.toNat % 16).digitChar::hex rest := rfl
    rw [unfolded,List.length_cons,List.length_cons,ih,List.length_cons]
    omega

theorem hexdigest_length (py : Python) (key message : Text) : (quoted (hexdigest py key message)).length = 66 := by
  rw [quoted_length,hexdigest,escaped_hex,hex_length,py.hmac_size]

/-- The bytes that the answer to an accepted request takes: what the command printed, or the text of
what was raised, with every character that is not printed in ASCII written as an escape. -/
def reply_size : Except Text Output → Nat
  | .ok output =>
    133 + (quoted output.stdout).length + (quoted output.stderr).length + (decimal output.exit_code).length
  | .error e => 33 + (quoted e).length

theorem dumps_ok_length (py : Python) (key message : Text) (output : Output) :
    (Response.ok (hexdigest py key message) output).dumps.length = reply_size (.ok output) := by
  have names : (quoted (text "protocol")).length = 10 ∧ (quoted (text "server_nonce_mac")).length = 18 ∧
      (quoted (text "stdout")).length = 8 ∧ (quoted (text "stderr")).length = 8 ∧
      (quoted (text "exit_code")).length = 11 ∧ (decimal PROTOCOL_VERSION).length = 1 := by decide
  obtain ⟨protocol,mac,out,err,code,version⟩ := names
  simp only [Response.dumps,Daemon.dumps,JsonValue.joined,compact,List.map_cons,List.map_nil,List.intercalate,
    List.intersperse,List.flatten_cons,List.flatten_nil,List.length_cons,List.length_append,List.length_nil,
    hexdigest_length,protocol,mac,out,err,code,version,reply_size]
  omega

theorem dumps_error_length (e : Text) : (Response.error e).dumps.length = 23 + (quoted e).length := by
  have names : (quoted (text "protocol")).length = 10 ∧ (quoted (text "error")).length = 7 ∧
      (decimal PROTOCOL_VERSION).length = 1 := by decide
  obtain ⟨protocol,error,version⟩ := names
  simp only [Response.dumps,Daemon.dumps,JsonValue.joined,compact,List.map_cons,List.map_nil,List.intercalate,
    List.intersperse,List.flatten_cons,List.flatten_nil,List.length_cons,List.length_append,List.length_nil,
    protocol,error,version]
  omega

theorem dumps_internal_length (e : Text) : (internal e).dumps.length = reply_size (.error e) := by
  have front : ((text "internal: ").flatMap escaped).length = 10 := by decide
  rw [internal,dumps_error_length,quoted_length,List.flatMap_append,List.length_append,front,reply_size,quoted_length]
  omega

theorem encode_frame_leaks_iff (response : Response) :
    (∃ leaked, encode_frame response = .error leaked) ↔ MAX_FRAME_BYTES < response.dumps.length := by
  unfold encode_frame
  by_cases large : MAX_FRAME_BYTES < response.dumps.length <;> simp [large]

/-! Reading a frame. -/

theorem read_exact_errors {closed : Bool} {chunks : List (List UInt8)} {n : Nat} {e : FrameError}
    (failed : read_exact closed chunks n = .error e) : e = .protocol ∨ e = .os := by
  induction chunks generalizing n e with
  | nil =>
    cases n with
    | zero => contradiction
    | succ n =>
      simp only [read_exact] at failed
      cases closed <;> simp_all
  | cons chunk rest ih =>
    cases n with
    | zero => contradiction
    | succ n =>
      simp only [read_exact] at failed
      split at failed
      · exact .inl (Except.error.inj failed).symm
      · split at failed
        · contradiction
        · cases more : read_exact closed rest (n + 1 - chunk.length) with
          | ok got => simp [more,Except.map] at failed
          | error e' =>
            simp only [more,Except.map,Except.error.injEq] at failed
            exact failed ▸ ih more

theorem read_payload_errors {stream : Stream} {e : FrameError} (failed : read_payload stream = .error e) :
    e = .protocol ∨ e = .os := by
  unfold read_payload at failed
  cases header : read_exact stream.closed stream.chunks 4 with
  | error e' =>
    simp only [header,Except.bind,Except.error.injEq] at failed
    exact failed ▸ read_exact_errors header
  | ok got =>
    simp only [header,Except.bind] at failed
    split at failed
    · exact .inl (Except.error.inj failed).symm
    · cases payload : read_exact stream.closed got.2 (unpack got.1) with
      | ok got => simp [payload,Except.map] at failed
      | error e' =>
        simp only [payload,Except.map,Except.error.injEq] at failed
        exact failed ▸ read_exact_errors payload

theorem unpack_pack {n : Nat} (small : n ≤ MAX_FRAME_BYTES) : unpack (pack n) = n := by
  simp only [unpack,pack,List.foldl_cons,List.foldl_nil,UInt8.toNat_ofNat',MAX_FRAME_BYTES] at small ⊢
  omega

theorem read_payload_frame {payload : List UInt8} (some_byte : payload ≠ []) (small : payload.length ≤ MAX_FRAME_BYTES)
    (closed : Bool) : read_payload ⟨[pack payload.length ++ payload],closed⟩ = .ok payload := by
  have positive : 0 < payload.length := List.length_pos_iff.mpr some_byte
  have header : read_exact closed [pack payload.length ++ payload] 4 = .ok (pack payload.length,[payload]) := by
    simp [read_exact,pack,positive]
  obtain ⟨n,length⟩ : ∃ n, payload.length = n + 1 := ⟨payload.length - 1,by omega⟩
  have rest : read_exact closed [payload] payload.length = .ok (payload,[]) := by
    simp only [length,read_exact,some_byte,if_false,Nat.lt_irrefl,Nat.sub_self]
    simp [Except.map]
  simp only [read_payload,header,Except.bind,unpack_pack small,Nat.not_lt.mpr small,if_false,rest,Except.map]

section Python

variable (py : Python)

/-- Whatever else is wrong with a frame, its text does not run into a limit of the interpreter. -/
def Legible (stream : Stream) : Prop :=
  ∀ payload, read_payload stream = .ok payload → ∀ cs, decode_utf8 payload = some cs →
    py.loads cs ≠ .error .recursion ∧ py.loads cs ≠ .error .digits

theorem raised_expected (fault : Fault) :
    (raised fault = .protocol ∨ raised fault = .os) ↔ fault ≠ .recursion ∧ fault ≠ .digits := by
  cases fault <;> decide

theorem decode_frame_errors_iff (stream : Stream) :
    (∀ e, decode_frame py stream = .error e → e = .protocol ∨ e = .os) ↔ Legible py stream := by
  unfold Legible decode_frame
  cases read : read_payload stream with
  | error e => simpa [Except.bind] using read_payload_errors read
  | ok payload =>
    cases decoded : decode_utf8 payload with
    | none => simp [Except.bind,decoded]
    | some cs =>
      cases loaded : py.loads cs with
      | ok value => simp [Except.bind,Except.mapError,decoded,loaded]
      | error fault => simp [Except.bind,Except.mapError,decoded,loaded,raised_expected]

/-! What comes of a request. -/

/-- The daemon runs the command of the request. -/
def Accepted (host : Host) (server : Server) (request : Value) : Prop := (check_request py host server request).1 = .ok none

/-- How the execution of a request ends: with what the command printed, or with the text of what was raised. -/
def outcome (host : Host) (server : Server) (members : List (Text × Value)) : Except Text Output :=
  match env_overlay members with
  | .error misuse => .error (text misuse.text)
  | .ok overlay =>
    match (host.getcwd.or (host.lookup (overlay.map Prod.fst))).or host.go_back with
    | some e => .error e
    | none => (run_command host server ((get members "argv").getD .null) (requested_cwd server members) overlay).result.bind
        fun output => (nonce_mac py server members).map fun _ => output

theorem nonce_mac_eq {server : Server} {members : List (Text × Value)} {mac : Text}
    (signed : nonce_mac py server members = .ok mac) :
    ∃ nonce, py.str ((get members "nonce").getD (.text [])) = some nonce ∧ mac = hexdigest py server.token nonce := by
  unfold nonce_mac at signed
  split at signed
  · contradiction
  · split at signed
    · contradiction
    · exact ⟨_,‹_›,(Except.ok.inj signed).symm⟩

theorem execute_result (host : Host) (server : Server) (members : List (Text × Value)) :
    (∃ output mac, outcome py host server members = .ok output ∧ nonce_mac py server members = .ok mac ∧
      (_execute py host server members).result = .ok (.ok mac output)) ∨
    ∃ e, outcome py host server members = .error e ∧ (_execute py host server members).result = .error e := by
  unfold outcome _execute
  cases env_overlay members with
  | error misuse => exact .inr ⟨_,rfl,rfl⟩
  | ok overlay =>
    simp only
    cases before : host.getcwd.or (host.lookup (overlay.map Prod.fst)) with
    | some e => exact .inr ⟨e,rfl,rfl⟩
    | none =>
      cases back : host.go_back with
      | some e => exact .inr ⟨e,rfl,rfl⟩
      | none =>
        simp only [Option.or_none]
        cases run : (run_command host server ((get members "argv").getD .null) (requested_cwd server members) overlay).result with
        | error e => exact .inr ⟨e,rfl,rfl⟩
        | ok output =>
          cases signed : nonce_mac py server members with
          | error e => exact .inr ⟨e,rfl,rfl⟩
          | ok mac => exact .inl ⟨output,mac,rfl,rfl,rfl⟩

/-! The checks answer briefly. -/

def refusals : List String := ["version_skew","auth_failed","not_allowed","busy"]

/-- The complaints are of fixed texts, but for the name of a type. -/
def Misuse.Brief : Misuse → Prop
  | .no_startswith type => type.length ≤ 8
  | .no_len type => type.length ≤ 8
  | .no_items type => type.length ≤ 8
  | _ => True

theorem type_name_length (value : Value) : (type_name value).length ≤ 8 := by
  cases value <;> simp only [type_name] <;> decide

theorem first_subcommand_complaint {items : List Value} {misuse : Misuse}
    (failed : first_subcommand items = .error misuse) : misuse.Brief := by
  fun_induction first_subcommand items <;> grind [Misuse.Brief,type_name_length]

theorem is_allowed_complaint (argv : Value) (misuse : Misuse) (failed : is_allowed argv = .error misuse) :
    misuse.Brief := by
  have mapped {items : List Value}
      (failed : (first_subcommand items).map (fun first => first.any ALLOWED_COMMANDS.contains) = .error misuse) :
      misuse.Brief := by
    cases first : first_subcommand items with
    | ok found => simp [first,Except.map] at failed
    | error found =>
      simp only [first,Except.map,Except.error.injEq] at failed
      exact failed ▸ first_subcommand_complaint first
  unfold is_allowed at failed
  split at failed
  · contradiction
  · split at failed
    · exact mapped failed
    · exact mapped failed
    · obtain rfl := Except.error.inj failed
      trivial
    · obtain rfl := Except.error.inj failed
      grind [Misuse.Brief,type_name_length]

/-- A request is turned away by one of the checks, or its command is run. -/
theorem check_request_answers (host : Host) (server : Server) (request : Value) :
    (∃ misuse, misuse.Brief ∧ (check_request py host server request).1 = .error misuse) ∨
    (∃ refused ∈ refusals, (check_request py host server request).1 = .ok (some refused)) ∨
    Accepted py host server request := by
  unfold Accepted check_request
  have busy : "busy" ∈ refusals ∧ "version_skew" ∈ refusals ∧ "auth_failed" ∈ refusals ∧ "not_allowed" ∈ refusals := by
    decide
  have brief : Misuse.no_str.Brief ∧ Misuse.not_ascii.Brief := ⟨trivial,trivial⟩
  have compared (a b : Text) (misuse : Misuse) (failed : compare_digest a b = .error misuse) : misuse = .not_ascii := by
    unfold compare_digest at failed
    split at failed
    · contradiction
    · exact (Except.error.inj failed).symm
  have allowed := is_allowed_complaint
  split <;> grind

theorem escaped_length_le (code : Nat) : (escaped code).length ≤ 12 := by
  have units n : (JsonValue.unit n).length = 6 := rfl
  unfold escaped JsonValue.escaped
  grind

theorem quoted_length_le (s : Text) : (quoted s).length ≤ 12 * s.length + 2 := by
  rw [quoted_length]
  induction s with
  | nil => simp
  | cons code rest ih =>
    have first := escaped_length_le code
    simp only [List.flatMap_cons,List.length_append,List.length_cons]
    omega

theorem text_length (s : String) : (text s).length = s.length := by simp [text,String.length_toList]

theorem brief_complaint {misuse : Misuse} (brief : misuse.Brief) :
    reply_size (.error (text misuse.text)) ≤ MAX_FRAME_BYTES := by
  have pieces {front back type : String} (rest : front.length + back.length ≤ 50) (brief : type.length ≤ 8) :
      (front ++ type ++ back).length ≤ 100 := by
    rw [String.length_append,String.length_append]
    omega
  have short : (text misuse.text).length ≤ 100 := by
    rw [text_length]
    cases misuse with
    | unhashable dict => cases dict <;> decide
    | no_startswith type => exact pieces (by decide) brief
    | no_len type => exact pieces (by decide) brief
    | no_items type => exact pieces (by decide) brief
    | no_first => decide
    | not_ascii => decide
    | no_str => decide
  have bound := quoted_length_le (text misuse.text)
  simp only [reply_size,MAX_FRAME_BYTES]
  omega

theorem brief_refusal {refused : String} (listed : refused ∈ refusals) :
    (Response.error (text refused)).dumps.length ≤ MAX_FRAME_BYTES := by
  have short : (text refused).length ≤ 100 := by
    revert refused
    decide
  have bound := quoted_length_le (text refused)
  simp only [dumps_error_length,MAX_FRAME_BYTES]
  omega

/-! One connection. -/

/-- The frame runs into no limit of the interpreter, and what comes of a request that is accepted fits
into a frame. -/
structure Contained (server : Server) (conn : Connection) : Prop where
  legible : Legible py conn.stream
  fits : ∀ request, decode_frame py conn.stream = .ok request → Accepted py conn.host server request →
    reply_size (outcome py conn.host server (members_of request)) ≤ MAX_FRAME_BYTES

theorem outcome_eq {host : Host} {server begun : Server} {members : List (Text × Value)}
    (environ : begun.environ = server.environ) (root : begun.repo_root = server.repo_root) :
    outcome py host begun members = outcome py host server members := by
  have nonce : (fun output : Output => (nonce_mac py begun members).map fun _ => output) =
      fun output => (nonce_mac py server members).map fun _ => output := by
    ext output
    unfold nonce_mac
    split
    · rfl
    · split <;> rfl
  have run argv cwd overlay : (run_command host begun argv cwd overlay).result =
      (run_command host server argv cwd overlay).result := by
    unfold run_command
    rw [environ]
    cases host.chdir cwd with
    | error e => rfl
    | ok directory =>
      simp only
      split <;> rfl
  have cwd : requested_cwd begun members = requested_cwd server members := by rw [requested_cwd,requested_cwd,root]
  unfold outcome
  simp only [nonce,run,cwd]

theorem answer_accepted {host : Host} {server : Server} {request : Value} (accepted : Accepted py host server request) :
    (answer (handle_request py host server request).result).dumps.length = reply_size (outcome py host server (members_of request)) := by
  have same : outcome py host {(check_request py host server request).2 with
      requests_served := (check_request py host server request).2.requests_served + 1} (members_of request) =
      outcome py host server (members_of request) := by
    apply outcome_eq
    · obtain unchanged | noted := checked_server py host server request
      · simp [unchanged]
      · simp [noted]
    · obtain unchanged | noted := checked_server py host server request
      · simp [unchanged]
      · simp [noted]
  unfold Accepted at accepted
  rw [handle_request]
  simp only [accepted,← same,answer]
  obtain ⟨output,mac,ending,signed,result⟩ | ⟨e,ending,result⟩ := execute_result py host
    {(check_request py host server request).2 with
      requests_served := (check_request py host server request).2.requests_served + 1} (members_of request)
  · obtain ⟨nonce,-,rfl⟩ := nonce_mac_eq py signed
    simp only [result,ending]
    exact dumps_ok_length py _ nonce output
  · simp only [result,ending]
    exact dumps_internal_length e

theorem answer_brief {host : Host} {server : Server} {request : Value} (turned_away : ¬Accepted py host server request) :
    (answer (handle_request py host server request).result).dumps.length ≤ MAX_FRAME_BYTES := by
  rw [handle_request]
  obtain ⟨misuse,brief,checked⟩ | ⟨refused,listed,checked⟩ | accepted := check_request_answers py host server request
  · simp only [checked,answer,dumps_internal_length]
    exact brief_complaint brief
  · simp only [checked,answer]
    exact brief_refusal listed
  · exact absurd accepted turned_away

theorem serve_returns_iff (server : Server) (conn : Connection) :
    (_serve_connection py server conn).leaked = none ↔ Contained py server conn := by
  have errors := decode_frame_errors_iff py conn.stream
  cases decoded : decode_frame py conn.stream with
  | error e =>
    have legible : Contained py server conn ↔ e = .protocol ∨ e = .os := by
      constructor
      · intro contained
        exact errors.mpr contained.legible e decoded
      · intro expected
        refine ⟨errors.mp ?_,?_⟩
        · intro other failed
          rw [decoded] at failed
          exact Except.error.inj failed ▸ expected
        · intro request read
          rw [decoded] at read
          contradiction
    rw [legible,_serve_connection,decoded]
    cases e <;> simp
  | ok request =>
    have legible : Legible py conn.stream := errors.mp fun e failed => by
      rw [decoded] at failed
      contradiction
    have size : Contained py server conn ↔ (answer (handle_request py conn.host server request).result).dumps.length ≤ MAX_FRAME_BYTES := by
      constructor
      · intro contained
        by_cases accepted : Accepted py conn.host server request
        · rw [answer_accepted py accepted]
          exact contained.fits request decoded accepted
        · exact answer_brief py accepted
      · intro small
        refine ⟨legible,fun other read accepted => ?_⟩
        obtain rfl := Except.ok.inj (decoded.symm.trans read)
        rw [← answer_accepted py accepted]
        exact small
    have encodes := encode_frame_leaks_iff (answer (handle_request py conn.host server request).result)
    rw [size,← Nat.not_lt,← encodes,_serve_connection,decoded]
    simp only [respond]
    cases framed : encode_frame (answer (handle_request py conn.host server request).result) <;> simp

/-! The accept loop. -/

/-- Every connection that the loop comes to is contained. -/
def AllContained : Server → List Turn → Prop
  | _,[] => True
  | server,turn::rest =>
    should_stop server turn = true ∨
    match turn.client with
    | none => AllContained server rest
    | some conn => Contained py server conn ∧ AllContained (_serve_connection py server conn).server rest

/-- The accept loop ends by `should_stop` only, exactly when no connection runs into a limit of the
interpreter or is answered with more than a frame holds. -/
theorem daemon_survives (server : Server) (turns : List Turn) :
    (∀ conn, (_serve_connection py server conn).leaked = none ↔ Contained py server conn) ∧
    ((∀ leaked, (run_posix py server turns).2 ≠ .died leaked) ↔ AllContained py server turns) := by
  refine ⟨serve_returns_iff py server,?_⟩
  induction turns generalizing server with
  | nil => simp [run_posix,AllContained]
  | cons turn rest ih =>
    rw [run_posix,AllContained]
    by_cases stop : should_stop server turn = true
    · simp [stop]
    · simp only [stop,Bool.false_eq_true,if_false,false_or]
      cases turn.client with
      | none => exact ih server
      | some conn =>
        have returns := serve_returns_iff py server conn
        cases leaked : (_serve_connection py server conn).leaked with
        | none =>
          simp only [leaked,true_iff] at returns ⊢
          rw [ih]
          exact (and_iff_right returns).symm
        | some e =>
          simp only [leaked,reduceCtorEq,false_iff] at returns
          simp [returns,leaked]

/-- A frame of nothing but brackets that open ends the daemon as soon as they are more than the
interpreter nests. -/
theorem brackets_kill (server : Server) (host : Host) (writable : Bool) (more : Nat)
    (small : py.limits.nesting + more + 1 ≤ MAX_FRAME_BYTES) :
    let payload := List.replicate (py.limits.nesting + more + 1) (0x5b : UInt8)
    (_serve_connection py server ⟨⟨[pack payload.length ++ payload],true⟩,host,writable⟩).leaked = some .recursion := by
  intro payload
  have read : read_payload ⟨[pack payload.length ++ payload],true⟩ = .ok payload := by
    apply read_payload_frame
    · simp [payload]
    · simpa [payload] using small
  have decoded : decode_utf8 payload = some (List.replicate (py.limits.nesting + more + 1) '[') := by
    have ascii := decode_utf8_ascii (List.replicate (py.limits.nesting + more + 1) '[') fun c member => by
      rw [List.eq_of_mem_replicate member]
      decide
    rwa [List.map_replicate] at ascii
  have raised : decode_frame py ⟨[pack payload.length ++ payload],true⟩ = .error .recursion := by
    have deep : py.loads (List.replicate (py.limits.nesting + more + 1) '[') = .error .recursion :=
      @loads_brackets py.rounding py.limits more
    simp only [decode_frame,read,Except.bind,decoded,deep]
    rfl
  simp [_serve_connection,raised]

end Python

/-! A thousand and one brackets. -/

theorem thousand_brackets_kill :
    let payload := List.replicate 1001 (0x5b : UInt8)
    let conn : Connection := ⟨⟨[pack payload.length ++ payload],true⟩,obliging_host,true⟩
    (_serve_connection interpreter fresh_server conn).leaked = some .recursion ∧
    (run_posix interpreter fresh_server [⟨false,false,some conn⟩]).2 = .died .recursion := by
  intro payload conn
  have leaked : (_serve_connection interpreter fresh_server conn).leaked = some .recursion :=
    brackets_kill interpreter fresh_server obliging_host true 0 (by decide)
  have going : should_stop fresh_server ⟨false,false,some conn⟩ = false := rfl
  exact ⟨leaked,by simp [run_posix,going,leaked]⟩

end AetherVault.Daemon
