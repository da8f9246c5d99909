import AetherVault.LocalObjects
import AetherVault.CommitRows
import Mathlib.Tactic.IntervalCases

/-! `cmd_env.py`: what a capture records, the snapshot that is fetched by its id on a clone, and the recipe rendered from it. The
renderer reads a snapshot at its top level, where the object of a second-version snapshot has nothing but `env`. -/
namespace AetherVault.EnvReplay
open Lib Hashing LocalObjects
open Daemon (compact)

inductive SnapshotVersion
  | unnumbered
  | first
  | second

def SnapshotVersion.number : SnapshotVersion → Option Nat
  | .unnumbered => none
  | .first => some 1
  | .second => some 2

/-- What a capture finds out. The version of Python is one word. -/
structure Capture where
  captured_at : String
  python : String
  platform : String
  cuda_visible_devices : Option String
  seeds : Dict String String
  pins : Dict String String
  os_family : String
  cuda_toolkit_version : Option String
  env_vars : Dict String String
  observed : JsonValue
  freeze : Option (List String)
  one_line : '\n' ∉ python.toList

def strings (d : Dict String String) : JsonValue := .dict (d.entries.map fun entry => (entry.1,.string entry.2))

def string_or_null (value : Option String) : JsonValue := value.elim .null .string

def Capture.env (c : Capture) : JsonValue := .dict [("python",.string c.python),("os_family",.string c.os_family),("pins",strings c.pins),
  ("seeds",strings c.seeds),("cuda_toolkit_version",string_or_null c.cuda_toolkit_version),("env_vars",strings c.env_vars)]

/-- The fields that both versions have at the top. -/
def Capture.flat (c : Capture) : List (String × JsonValue) := [("captured_at",.string c.captured_at),("python",.string c.python),
  ("platform",.string c.platform),("cuda_visible_devices",string_or_null c.cuda_visible_devices),("seeds",strings c.seeds),
  ("pins",strings c.pins)]

def _collect (version : SnapshotVersion) (c : Capture) : Doc :=
  let snap : Doc := match version with
    | .unnumbered => Dict.ofList c.flat
    | .first => Dict.ofList (("snapshot_version",natural 1)::c.flat)
    | .second => Dict.ofList (("snapshot_version",natural 2)::c.flat ++ [("env",c.env),("observed",c.observed)])
  c.freeze.elim snap fun freeze => snap.set "freeze" (.list (freeze.map .string))

/-! Reading. -/

def decode (bytes : Bytes) : Option (List Char) := (String.fromUTF8? (ByteArray.mk bytes.toArray)).map String.toList

/-- A snapshot is not nested deep enough for a `RecursionError`. -/
def json_loads (bytes : Bytes) : Improvers.Loaded :=
  match (decode bytes).bind JsonValue.loads with
  | some v => .value v
  | none => .value_error

/-- The version is an integer. -/
def tools : SnapshotTools := ⟨json_loads,fun n k => n = Numeral.ofNat k⟩

def load_env_snapshot (file : Bytes) : Option Doc :=
  match json_loads file with
  | .value (.dict members) => some (Dict.ofList members)
  | _ => none

variable {H : Type} [DecidableEq H] [Hashing H]

/-- What `fetch_snapshot_by_id` returns. -/
def fetched_by_id (files : CasFiles H) (sid : H) (reply : Option Bytes) : Option Doc :=
  match local_snapshot tools files sid with
  | .found snap => some snap
  | .absent => replied_snapshot tools sid reply
  | .raised => none

/-! Rendering. -/

section Recipe

-- `str` of a value that is neither a string nor null.
variable (str : JsonValue → String)

def text_of : JsonValue → String
  | .string s => s
  | .null => "None"
  | other => str other

def pin_lines : Option JsonValue → List String
  | some (.dict pins) => pins.map fun pin => pin.1 ++ "==" ++ text_of str pin.2
  | _ => []

def rendered_pins (snap : Doc) : List String :=
  match (snap.get? "freeze").filter truthy with
  | some (.list freeze) => freeze.map (text_of str)
  | some _ => []
  | none => pin_lines str ((snap.get? "pins").filter truthy)

def py_version (snap : Doc) : String := ((snap.get? "python").map (text_of str)).getD "3.12"

def cuda_devices (snap : Doc) : String := ((snap.get? "cuda_visible_devices").map (text_of str)).getD "None"

/-- `s.rsplit(".", 1)[0]` -/
def before_last_dot (s : String) : String :=
  if '.' ∈ s.toList then String.ofList (s.toList.reverse.dropWhile (· ≠ '.')).tail.reverse else s

/-- `"\n".join(lines)` -/
def join_lines : List String → String
  | [] => ""
  | [line] => line
  | line::more => line ++ "\n" ++ join_lines more

def dockerfile_recipe (pins : List String) (py_version cuda_devices : String) (cuda_tag : Option String) : String :=
  let tag := cuda_tag.filter (· ≠ "")
  let base := tag.elim ("python:" ++ py_version ++ "-slim") fun tag => "nvidia/cuda:" ++ tag ++ "-runtime-ubuntu22.04"
  let py_install := tag.elim "" fun _ => "RUN apt-get update && apt-get install -y --no-install-recommends python" ++
    before_last_dot py_version ++ " python3-pip python3-venv && \\\n    rm -rf /var/lib/apt/lists/*\n"
  let pip_lines := join_lines (pins.map fun pin => "RUN /opt/venv/bin/pip install --no-cache-dir " ++ pin)
  "# syntax=docker/dockerfile:1\n# Recipe-exact reproduction of a captured training environment (av env replay --dockerfile).\n" ++
    "# Adjust the CUDA tag (" ++ tag.getD "(none — CPU base)" ++ ") to match your drivers if this drifts.\n\n" ++
    "FROM " ++ base ++ " AS builder\n" ++ py_install ++ "RUN python3 -m venv /opt/venv\n" ++ pip_lines ++ "\n\nFROM " ++ base ++ "\n" ++
    py_install ++ "RUN useradd --create-home --shell /bin/bash av\nCOPY --from=builder /opt/venv /opt/venv\n" ++
    "ENV PATH=\"/opt/venv/bin:$PATH\"\nUSER av\nWORKDIR /workspace\n\n# Data & weights come from Aether itself:\n" ++
    "#   av clone <project> --remote-url <registry>\n#   av checkout <commit>\n# Seeds / CUDA_VISIBLE_DEVICES at capture time:\n" ++
    "#   CUDA_VISIBLE_DEVICES=" ++ cuda_devices ++ "\n"

def plain_recipe (pins : List String) (py_version cuda_devices : String) : String :=
  "python==" ++ py_version ++ "\nCUDA_VISIBLE_DEVICES=" ++ cuda_devices ++ "\npackages:\n" ++
    join_lines (pins.map fun pin => "  pip install " ++ pin)

def render_recipe (snap : Doc) (dockerfile : Bool) (cuda_tag : Option String) : String :=
  if dockerfile then dockerfile_recipe (rendered_pins str snap) (py_version str snap) (cuda_devices str snap) cuda_tag
  else plain_recipe (rendered_pins str snap) (py_version str snap) (cuda_devices str snap)

end Recipe

/-! Clones. -/

/-- A store that came to hold the object of a snapshot, if it does, by a capture, a download or a fetch. -/
inductive Clone (snap : Doc) : CasFiles H → Prop
  | without {files : CasFiles H} (absent : files.get? (env_snapshot_id tools snap) = none) : Clone snap files
  | store {files : CasFiles H} (before : Clone snap files) : Clone snap (_store_snapshot_object tools files snap)
  | download {files : CasFiles H} (before : Clone snap files) :
      Clone snap (files.set (env_snapshot_id tools snap) (canonical_env_bytes tools snap))
  | fetch {files : CasFiles H} {reply : Option Bytes} (before : Clone snap files)
      (genuine : reply = none ∨ reply = some (canonical_env_bytes tools snap)) :
      Clone snap (fetch_snapshot_by_id tools files (env_snapshot_id tools snap) reply)
  | elsewhere {files files' : CasFiles H} (before : Clone snap files)
      (same : files'.get? (env_snapshot_id tools snap) = files.get? (env_snapshot_id tools snap)) : Clone snap files'

/-! What a document is once it was written and read. -/

theorem decode_encode (cs : List Char) : decode (encode cs) = some cs := by
  have same : ByteArray.mk (encode cs).toArray = (String.ofList cs).toByteArray := by rw [encode,Array.toArray_toList]
  rw [decode,same,String.fromUTF8?,dif_pos (String.ofList cs).isValidUTF8,Option.map_some,String.fromUTF8]
  exact congrArg some String.toList_ofList

theorem json_loads_encode {cs : List Char} {v : JsonValue} (read : JsonValue.loads cs = some v) : json_loads (encode cs) = .value v := by
  rw [json_loads,decode_encode,Option.bind_some,read]

/-- The members in the order in which they are written. -/
def arranged (d : Doc) : List (String × JsonValue) := (JsonValue.arrange_members d.entries).insertionSort fun a b => a.1 ≤ b.1

def reloaded (d : Doc) : Doc := Dict.ofList (arranged d)

theorem arrange_dict (d : Doc) : (JsonValue.dict d.entries).arrange = .dict (arranged d) := rfl

theorem mem_arranged {d : Doc} {key : String} {value : JsonValue} :
    (key,value) ∈ arranged d ↔ (d.get? key).map JsonValue.arrange = some value := by
  have mapped : JsonValue.arrange_members d.entries = (d.map fun _ value => value.arrange).entries := JsonValue.arrange_members_eq d.entries
  rw [arranged,List.mem_insertionSort,mapped,Dict.mem_entries,Dict.get?_map]

theorem get?_reloaded (d : Doc) (key : String) : (reloaded d).get? key = (d.get? key).map JsonValue.arrange := by
  ext value
  constructor
  · intro found
    exact mem_arranged.mp (Dict.get?_ofList found)
  · intro found
    obtain ⟨other,held⟩ := (Dict.contains_iff _ _).mp (Dict.contains_ofList (mem_arranged.mpr found))
    have same := mem_arranged.mp (Dict.get?_ofList held)
    rw [found] at same
    rw [Option.some.inj same]
    exact held

theorem loads_canonical (snap : Doc) : json_loads (canonical_env_bytes tools snap) = .value (.dict (arranged (canonical_env tools snap))) :=
  json_loads_encode (JsonValue.loads_text compact _)

theorem loads_indented_bytes (snap : Doc) : json_loads (indented_bytes snap) = .value (.dict (arranged snap)) :=
  json_loads_encode (JsonValue.loads_indented 2 _)

theorem load_env_snapshot_indented (snap : Doc) : load_env_snapshot (indented_bytes snap) = some (reloaded snap) := by
  rw [load_env_snapshot,loads_indented_bytes]
  rfl

/-! The id of what comes back. -/

/-- The members that identify a snapshot, as they read back. -/
def Reads (snap read : Doc) : Prop := ∀ key, read.get? key = ((canonical_env tools snap).get? key).map JsonValue.arrange

theorem arrange_twice (value : Option JsonValue) : (value.map JsonValue.arrange).map JsonValue.arrange = value.map JsonValue.arrange := by
  cases value with
  | none => rfl
  | some v => exact congrArg some v.arrange_arrange

theorem arrange_is_dict {value : JsonValue} {members : List (String × JsonValue)} (same : value.arrange = .dict members) :
    ∃ inner, value = .dict inner := by
  cases value with
  | dict inner => exact ⟨inner,rfl⟩
  | _ => contradiction

theorem arrange_is_number {value : JsonValue} {n : Numeral} (same : value.arrange = .number n) : value = .number n := by
  cases value with
  | number m => exact same
  | _ => contradiction

theorem second_version_congr {a b : Doc} (same : (a.get? "snapshot_version") = (b.get? "snapshot_version").map JsonValue.arrange) :
    second_version tools a = second_version tools b := by
  unfold second_version
  rw [same]
  cases b.get? "snapshot_version" with
  | none => rfl
  | some v => cases v <;> rfl

theorem canonical_env_second {snap : Doc} {env : List (String × JsonValue)} (numbered : second_version tools snap = true)
    (held : snap.get? "env" = some (.dict env)) :
    canonical_env tools snap = Dict.ofList [("snapshot_version",natural 2),("env",.dict env)] := by
  rw [canonical_env,numbered,held]

theorem canonical_env_first {snap : Doc} (other : ¬ (second_version tools snap = true ∧ ∃ env, snap.get? "env" = some (.dict env))) :
    canonical_env tools snap = snap.erase "captured_at" := by
  unfold canonical_env
  split
  · rename_i env numbered held
    exact absurd ⟨numbered,env,held⟩ other
  · rfl

theorem two_members (first second : JsonValue) (key : String) : (Dict.ofList [("snapshot_version",first),("env",second)]).get? key =
    if key = "env" then some second else if key = "snapshot_version" then some first else none := by
  change (((∅ : Doc).set "snapshot_version" first).set "env" second).get? key = _
  rw [Dict.get?_set,Dict.get?_set]
  rfl

omit [DecidableEq H] in
theorem reads_id {snap read : Doc} (reads : Reads snap read) : (env_snapshot_id tools read : H) = env_snapshot_id tools snap := by
  suffices same : (JsonValue.dict (canonical_env tools read).entries).arrange = (JsonValue.dict (canonical_env tools snap).entries).arrange by
    rw [env_snapshot_id,env_snapshot_id,canonical_env_bytes,canonical_env_bytes,JsonValue.dumps,JsonValue.dumps,if_pos rfl,if_pos rfl,same]
  rw [JsonValue.arrange_dict_iff]
  intro key
  by_cases both : second_version tools snap = true ∧ ∃ env, snap.get? "env" = some (.dict env)
  · obtain ⟨numbered,env,held⟩ := both
    rw [Reads,canonical_env_second numbered held] at reads
    have version : read.get? "snapshot_version" = some (natural 2) := reads "snapshot_version"
    have inner : read.get? "env" = some (JsonValue.dict env).arrange := reads "env"
    have numbered' : second_version tools read = true := by
      rw [second_version,version]
      rfl
    rw [canonical_env_second numbered held,canonical_env_second numbered' inner,two_members,two_members]
    split
    · exact congrArg some (JsonValue.dict env).arrange_arrange
    · rfl
  · rw [Reads,canonical_env_first both] at reads
    have other : ¬ (second_version tools read = true ∧ ∃ env, read.get? "env" = some (.dict env)) := by
      intro found
      obtain ⟨numbered,env,held⟩ := found
      have version := reads "snapshot_version"
      have inner := reads "env"
      rw [Dict.get?_erase,if_neg (by decide)] at version inner
      rw [second_version_congr version] at numbered
      rw [held] at inner
      obtain ⟨value,there,same⟩ := Option.map_eq_some_iff.mp inner.symm
      obtain ⟨members,rfl⟩ := arrange_is_dict same
      exact both ⟨numbered,members,there⟩
    rw [canonical_env_first both,canonical_env_first other,Dict.get?_erase]
    split
    · rename_i same
      rw [same,Dict.get?_erase,if_pos rfl]
    · rw [reads key]
      exact arrange_twice _

/-! What a clone fetches. -/

theorem reads_reloaded (snap : Doc) : Reads snap (reloaded (canonical_env tools snap)) := get?_reloaded _

theorem Reads.again {snap read : Doc} (reads : Reads snap read) : Reads snap (reloaded read) := by
  intro key
  rw [get?_reloaded,reads key]
  exact arrange_twice _

theorem replied_genuine (snap : Doc) : replied_snapshot tools (env_snapshot_id tools snap : H) (some (canonical_env_bytes tools snap)) =
    some (reloaded (canonical_env tools snap)) := by
  have loaded : tools.loads (canonical_env_bytes tools snap) = .value (.dict (arranged (canonical_env tools snap))) := loads_canonical snap
  rw [replied_snapshot,Option.map_some,loaded]
  exact Option.filter_eq_some_iff.mpr ⟨rfl,decide_eq_true (reads_id (reads_reloaded snap))⟩

theorem clone_holds {snap : Doc} {files : CasFiles H} (clone : Clone snap files) : ∀ bytes,
    files.get? (env_snapshot_id tools snap) = some bytes →
      ∃ d, json_loads bytes = .value (.dict (arranged d)) ∧ Reads snap (reloaded d) := by
  have canonical : ∃ d, json_loads (canonical_env_bytes tools snap) = .value (.dict (arranged d)) ∧ Reads snap (reloaded d) :=
    ⟨_,loads_canonical snap,reads_reloaded snap⟩
  induction clone with
  | without absent =>
    intro bytes held
    rw [absent] at held
    contradiction
  | store before ih =>
    intro bytes held
    rw [_store_snapshot_object] at held
    split at held
    · exact ih bytes held
    · rw [Dict.get?_set_same] at held
      exact Option.some.inj held ▸ canonical
  | download before ih =>
    intro bytes held
    rw [Dict.get?_set_same] at held
    exact Option.some.inj held ▸ canonical
  | @fetch files reply before genuine ih =>
    intro bytes held
    rw [fetch_snapshot_by_id] at held
    cases fetched : fetched_snapshot tools files (env_snapshot_id tools snap) reply with
    | none =>
      rw [fetched] at held
      exact ih bytes held
    | some read =>
      rw [fetched,Dict.get?_set_same] at held
      rw [← Option.some.inj held]
      refine ⟨read,loads_indented_bytes read,?_⟩
      unfold fetched_snapshot at fetched
      split at fetched
      · rcases genuine with rfl | rfl
        · contradiction
        · rw [replied_genuine] at fetched
          rw [← Option.some.inj fetched]
          exact (reads_reloaded snap).again
      · contradiction
  | elsewhere before same ih =>
    intro bytes held
    exact ih bytes (same ▸ held)

theorem fetched_reads {snap read : Doc} {files : CasFiles H} (clone : Clone snap files) {reply : Option Bytes}
    (genuine : reply = none ∨ reply = some (canonical_env_bytes tools snap))
    (fetched : fetched_by_id files (env_snapshot_id tools snap) reply = some read) : Reads snap read := by
  cases held : files.get? (env_snapshot_id tools snap) with
  | none =>
    rw [fetched_by_id,local_snapshot,held] at fetched
    rcases genuine with rfl | rfl
    · contradiction
    · simp only [Option.map_none,replied_genuine] at fetched
      exact Option.some.inj fetched ▸ reads_reloaded snap
  | some bytes =>
    obtain ⟨d,loaded,reads⟩ := clone_holds clone bytes held
    have found : local_snapshot tools files (env_snapshot_id tools snap) = .found (reloaded d) := by
      have loaded' : tools.loads bytes = .value (.dict (arranged d)) := loaded
      rw [local_snapshot,held,Option.map_some,loaded']
      rfl
    rw [fetched_by_id,found] at fetched
    exact Option.some.inj fetched ▸ reads

theorem fetched_fresh (snap : Doc) : fetched_by_id (∅ : CasFiles H) (env_snapshot_id tools snap) (some (canonical_env_bytes tools snap)) =
    some (reloaded (canonical_env tools snap)) := replied_genuine snap

/-! What is rendered. -/

variable (str : JsonValue → String)

theorem render_congr {a b : Doc} (freeze : a.get? "freeze" = b.get? "freeze") (pins : a.get? "pins" = b.get? "pins")
    (python : a.get? "python" = b.get? "python") (devices : a.get? "cuda_visible_devices" = b.get? "cuda_visible_devices")
    (dockerfile : Bool) (cuda_tag : Option String) : render_recipe str a dockerfile cuda_tag = render_recipe str b dockerfile cuda_tag := by
  rw [render_recipe,render_recipe,rendered_pins,rendered_pins,py_version,py_version,cuda_devices,cuda_devices,freeze,pins,python,devices]

theorem join_lines_pins (pins : List String) (empty : join_lines (pins.map fun pin => "  pip install " ++ pin) = "") : pins = [] := by
  rcases pins with _ | ⟨pin,_ | ⟨next,more⟩⟩
  · rfl
  · exact absurd (congrArg String.length empty) (by simp [join_lines])
  · exact absurd (congrArg String.length empty) (by simp [join_lines])

/-- A first line and what follows the line break. -/
theorem lines_inj {a b more more' : List Char} (one : '\n' ∉ a) (one' : '\n' ∉ b) (same : a ++ '\n'::more = b ++ '\n'::more') :
    a = b ∧ more = more' := by
  induction a generalizing b with
  | nil =>
    cases b with
    | nil => exact ⟨rfl,(List.cons.inj same).2⟩
    | cons d b => exact absurd (List.mem_cons.mpr (.inl (List.cons.inj same).1)) one'
  | cons c a ih =>
    cases b with
    | nil => exact absurd (List.mem_cons.mpr (.inl (List.cons.inj same).1.symm)) one
    | cons d b =>
      obtain ⟨rfl,rest⟩ := List.cons.inj same
      obtain ⟨rfl,later⟩ := ih (List.not_mem_of_not_mem_cons one) (List.not_mem_of_not_mem_cons one') rest
      exact ⟨rfl,later⟩

theorem plain_recipe_chars (pins : List String) (python devices : String) : (plain_recipe pins python devices).toList =
    "python==".toList ++ (python.toList ++ '\n'::("CUDA_VISIBLE_DEVICES=".toList ++ (devices.toList ++ '\n'::("packages:\n".toList ++
      (join_lines (pins.map fun pin => "  pip install " ++ pin)).toList)))) := by
  rw [plain_recipe]
  simp only [String.toList_append,List.append_assoc]
  rfl

/-- Four characters before a line break, and nothing after what comes back. -/
theorem devices_none {devices block : List Char} (same : devices ++ '\n'::("packages:\n".toList ++ block) =
    "None".toList ++ '\n'::("packages:\n".toList ++ [])) : devices = "None".toList ∧ block = [] := by
  have sizes := congrArg List.length same
  have ten : "packages:\n".toList.length = 10 := rfl
  have four : "None".toList.length = 4 := rfl
  simp only [List.length_append,List.length_cons,List.length_nil,ten,four] at sizes
  have short : devices.length = 4 := by
    have mark := congrArg (fun cs => cs[devices.length]?) same
    rw [List.getElem?_append_right (Nat.le_refl _),Nat.sub_self,List.getElem?_cons_zero] at mark
    have bound : devices.length ≤ 4 := by omega
    interval_cases devices.length <;> first | rfl | exact absurd mark (by decide)
  obtain ⟨rfl,rest⟩ := List.append_inj same (short.trans four.symm)
  exact ⟨rfl,List.append_cancel_left (List.cons.inj rest).2⟩

/-- The recipe says what it was made from, when the version is on one line. -/
theorem plain_recipe_bare {pins : List String} {python devices : String} (one_line : '\n' ∉ python.toList)
    (same : plain_recipe pins python devices = plain_recipe [] "3.12" "None") : python = "3.12" ∧ devices = "None" ∧ pins = [] := by
  have chars := congrArg String.toList same
  rw [plain_recipe_chars,plain_recipe_chars] at chars
  obtain ⟨version,rest⟩ := lines_inj one_line (by decide) (List.append_cancel_left chars)
  obtain ⟨named,none⟩ := devices_none (List.append_cancel_left rest)
  exact ⟨String.toList_inj.mp version,String.toList_inj.mp named,join_lines_pins pins (String.toList_inj.mp none)⟩

/-! What was captured. -/

theorem collected_other (version : SnapshotVersion) (c : Capture) (key : String) (other : key ≠ "freeze") :
    (_collect version c).get? key = (_collect version {c with freeze := none}).get? key := by
  unfold _collect
  cases c.freeze with
  | none => rfl
  | some freeze => rw [Option.elim_some,Dict.get?_set_other _ _ _ _ other]; rfl

theorem collected_freeze (version : SnapshotVersion) (c : Capture) :
    (_collect version c).get? "freeze" = c.freeze.map fun freeze => .list (freeze.map .string) := by
  unfold _collect
  cases c.freeze with
  | none => cases version <;> rfl
  | some freeze => rw [Option.elim_some,Dict.get?_set_same]; rfl

theorem collected_python (version : SnapshotVersion) (c : Capture) : (_collect version c).get? "python" = some (.string c.python) := by
  rw [collected_other version c "python" (by decide)]
  cases version <;> rfl

theorem collected_devices (version : SnapshotVersion) (c : Capture) :
    (_collect version c).get? "cuda_visible_devices" = some (string_or_null c.cuda_visible_devices) := by
  rw [collected_other version c "cuda_visible_devices" (by decide)]
  cases version <;> rfl

theorem collected_pins (version : SnapshotVersion) (c : Capture) : (_collect version c).get? "pins" = some (strings c.pins) := by
  rw [collected_other version c "pins" (by decide)]
  cases version <;> rfl

theorem collected_env (c : Capture) : second_version tools (_collect .second c) = true ∧
    (_collect .second c).get? "env" = some c.env := by
  rw [second_version,collected_other .second c "snapshot_version" (by decide),collected_other .second c "env" (by decide)]
  exact ⟨rfl,rfl⟩

theorem collected_first {version : SnapshotVersion} (c : Capture) (earlier : version ≠ .second) :
    canonical_env tools (_collect version c) = (_collect version c).erase "captured_at" := by
  apply canonical_env_first
  intro both
  have numbered := both.1
  rw [second_version,collected_other version c "snapshot_version" (by decide)] at numbered
  cases version with
  | second => contradiction
  | unnumbered => contradiction
  | first => contradiction

/-! The recipe of the local file. -/

theorem arrange_strings (d : Dict String String) : ∃ members : List (String × JsonValue), (strings d).arrange = .dict members ∧
    (members = [] ↔ d.entries = []) := by
  refine ⟨_,rfl,?_⟩
  rw [← List.length_eq_zero_iff,← List.length_eq_zero_iff,List.length_insertionSort,JsonValue.arrange_members_eq,List.length_map,List.length_map]

theorem arrange_string_list (items : List String) : (JsonValue.list (items.map .string)).arrange = .list (items.map .string) := by
  rw [JsonValue.arrange]
  induction items with
  | nil => rfl
  | cons s rest ih => rw [List.map_cons,JsonValue.arrange_items,JsonValue.list.inj ih]; rfl

theorem local_python (version : SnapshotVersion) (c : Capture) : py_version str (reloaded (_collect version c)) = c.python := by
  rw [py_version,get?_reloaded,collected_python]
  rfl

theorem local_devices (version : SnapshotVersion) (c : Capture) :
    cuda_devices str (reloaded (_collect version c)) = c.cuda_visible_devices.getD "None" := by
  rw [cuda_devices,get?_reloaded,collected_devices]
  cases c.cuda_visible_devices <;> rfl

theorem local_pins_iff (version : SnapshotVersion) (c : Capture) :
    rendered_pins str (reloaded (_collect version c)) = [] ↔ c.freeze.getD [] = [] ∧ c.pins.entries = [] := by
  obtain ⟨members,arranged_pins,none_iff⟩ := arrange_strings c.pins
  have from_pins : pin_lines str ((some (JsonValue.dict members)).filter truthy) = [] ↔ c.pins.entries = [] := by
    rw [← none_iff]
    cases members <;> simp [pin_lines,Option.filter,truthy]
  rw [rendered_pins,get?_reloaded,get?_reloaded,collected_freeze,collected_pins,Option.map_some,arranged_pins]
  cases c.freeze with
  | none => simpa [Option.filter] using from_pins
  | some freeze =>
    rw [Option.map_some,Option.map_some,arrange_string_list]
    cases freeze with
    | nil => simpa [Option.filter,truthy] using from_pins
    | cons first rest => simp [Option.filter,truthy]

/-- Nothing that the object of a second-version snapshot lacks. -/
structure Bare (c : Capture) : Prop where
  python : c.python = "3.12"
  devices : c.cuda_visible_devices.getD "None" = "None"
  freeze : c.freeze.getD [] = []
  pins : c.pins.entries = []

theorem canonical_rendered (c : Capture) : rendered_pins str (reloaded (canonical_env tools (_collect .second c))) = [] ∧
    py_version str (reloaded (canonical_env tools (_collect .second c))) = "3.12" ∧
      cuda_devices str (reloaded (canonical_env tools (_collect .second c))) = "None" := by
  obtain ⟨numbered,env⟩ := collected_env c
  have lacks (key : String) (apart : key ≠ "env") (apart' : key ≠ "snapshot_version") :
      (reloaded (canonical_env tools (_collect .second c))).get? key = none := by
    rw [get?_reloaded,canonical_env_second numbered env,two_members,if_neg apart,if_neg apart']
    rfl
  rw [rendered_pins,py_version,cuda_devices,lacks "freeze" (by decide) (by decide),lacks "pins" (by decide) (by decide),
    lacks "python" (by decide) (by decide),lacks "cuda_visible_devices" (by decide) (by decide)]
  exact ⟨rfl,rfl,rfl⟩

/-- The plain recipe already tells the two apart. -/
theorem bare_of_plain {c : Capture} (same : render_recipe str (reloaded (_collect .second c)) false none =
    render_recipe str (reloaded (canonical_env tools (_collect .second c))) false none) : Bare c := by
  obtain ⟨pins,python,devices⟩ := canonical_rendered str c
  rw [render_recipe,render_recipe,if_neg Bool.false_ne_true,if_neg Bool.false_ne_true,python,devices,pins,local_python,local_devices] at same
  obtain ⟨version,named,unpinned⟩ := plain_recipe_bare c.one_line same
  obtain ⟨freeze,pins⟩ := (local_pins_iff str .second c).mp unpinned
  exact ⟨version,named,freeze,pins⟩

theorem bare_renders {c : Capture} (bare : Bare c) (dockerfile : Bool) (cuda_tag : Option String) :
    render_recipe str (reloaded (_collect .second c)) dockerfile cuda_tag =
      render_recipe str (reloaded (canonical_env tools (_collect .second c))) dockerfile cuda_tag := by
  obtain ⟨pins,python,devices⟩ := canonical_rendered str c
  rw [render_recipe,render_recipe,python,devices,pins,local_python,local_devices,bare.python,bare.devices,
    (local_pins_iff str .second c).mpr ⟨bare.freeze,bare.pins⟩]

/-- On every clone the snapshot fetched by its id renders as the local file does exactly when it is of the first version, or has
nothing at the top that differs from what the renderer assumes. -/
theorem recipe_survives_iff (str : JsonValue → String) (version : SnapshotVersion) (c : Capture) :
    (∀ (files : CasFiles H) (reply : Option Bytes) (read : Doc), Clone (_collect version c) files →
      (reply = none ∨ reply = some (canonical_env_bytes tools (_collect version c))) →
      fetched_by_id files (env_snapshot_id tools (_collect version c)) reply = some read → ∀ dockerfile cuda_tag,
        (load_env_snapshot (indented_bytes (_collect version c))).map (fun snap => render_recipe str snap dockerfile cuda_tag) =
          some (render_recipe str read dockerfile cuda_tag)) ↔ (version = .second → Bare c) := by
  rw [load_env_snapshot_indented]
  by_cases second : version = .second
  · subst second
    constructor
    · intro survives _
      have same := survives ∅ (some (canonical_env_bytes tools (_collect .second c))) _ (.without rfl) (.inr rfl) (fetched_fresh _)
      exact bare_of_plain str (Option.some.inj (same false none))
    · intro bare files reply read clone genuine fetched dockerfile cuda_tag
      have reads := fetched_reads clone genuine fetched
      refine congrArg some ((bare_renders str (bare rfl) dockerfile cuda_tag).trans ?_)
      have keys (key : String) : (reloaded (canonical_env tools (_collect .second c))).get? key = read.get? key :=
        (get?_reloaded _ key).trans (reads key).symm
      exact render_congr str (keys _) (keys _) (keys _) (keys _) dockerfile cuda_tag
  · constructor
    · intro _ same
      exact absurd same second
    · intro _ files reply read clone genuine fetched dockerfile cuda_tag
      have reads := fetched_reads clone genuine fetched
      have keys (key : String) (other : key ≠ "captured_at") : (reloaded (_collect version c)).get? key = read.get? key := by
        rw [get?_reloaded,reads key,collected_first c second,Dict.get?_erase,if_neg other]
      exact congrArg some (render_congr str (keys _ (by decide)) (keys _ (by decide)) (keys _ (by decide)) (keys _ (by decide))
        dockerfile cuda_tag)

private def with_torch : Capture where
  captured_at := "2026-01-01T00:00:00+00:00"
  python := "3.12.4"
  platform := "linux"
  cuda_visible_devices := none
  seeds := ∅
  pins := Dict.ofList [("torch","2.4.0")]
  os_family := "Linux"
  cuda_toolkit_version := none
  env_vars := ∅
  observed := .null
  freeze := none
  one_line := by decide

/-- A clone without the snapshot fetches it, and renders neither its pins nor its version of Python. -/
theorem pins_lost : ∃ read, fetched_by_id (∅ : CasFiles Name) (env_snapshot_id tools (_collect .second with_torch))
    (some (canonical_env_bytes tools (_collect .second with_torch))) = some read ∧
      (load_env_snapshot (indented_bytes (_collect .second with_torch))).map (fun snap => render_recipe (fun _ => "") snap false none) ≠
        some (render_recipe (fun _ => "") read false none) := by
  refine ⟨_,fetched_fresh _,fun same => ?_⟩
  rw [load_env_snapshot_indented] at same
  exact absurd (bare_of_plain _ (Option.some.inj same)).python (by decide)

end AetherVault.EnvReplay
