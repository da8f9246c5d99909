import AetherVault.CommitRows
import AetherVault.Lib.GlobPath

/-! `sandbox/manifest.py`: what a manifest lets a sandboxed job have, and what the container gets. The check compares the
spelling of a mount's host path with globs whose wildcards take separators too. -/
namespace AetherVault.Sandbox
open Lib PyString GlobPath

inductive MountMode
  | ro
  | rw
  deriving DecidableEq

def MountMode.text : MountMode → String
  | .ro => "ro"
  | .rw => "rw"

structure Mount where
  host : String
  container : String
  mode : MountMode

/-- Limits that are not set, or zero, are `none`. -/
structure JobSpec where
  job_id : String
  command : List String
  cwd : Option String
  env : List (String × String)
  mounts : List Mount
  network : String
  cpu_limit : Option String
  memory_limit_mb : Option Nat
  gpu : Bool

section Check

-- `repr` of a string.
variable (repr : String → String)

def _parse_mount (raw : String) : Except String Mount :=
  match (raw.toList.splitOn ':').map String.ofList with
  | [host,container] => .ok ⟨host,container,.ro⟩
  | [host,container,mode] =>
    if mode = "ro" then .ok ⟨host,container,.ro⟩
    else if mode = "rw" then .ok ⟨host,container,.rw⟩
    else .error s!"Mount mode must be 'ro' or 'rw', got {repr mode}."
  | _ => .error ("Malformed --mount " ++ repr raw ++ " — expected \"host:container[:ro|rw]\".")

/-- What a loop over the globs comes to; `none` for what cannot be iterated. -/
def allowed_paths (manifest : Doc) : Option (List JsonValue) :=
  match (manifest.get? "writable_paths").filter truthy with
  | none => some []
  | some (.list items) => some items
  | some (.string s) => some (s.toList.map fun c => .string (String.ofList [c]))
  | some (.dict members) => some (members.map fun member => .string member.1)
  | some _ => none

/-- `none` for a glob that is no string, unless one before it matches. -/
def covered (host : String) : List JsonValue → Option Bool
  | [] => some false
  | .string pattern::rest => if fnmatch host.toList pattern.toList then some true else covered host rest
  | _::_ => none

/-- The refusal, if there is one; `none` for a `TypeError`. -/
def check_mounts (manifest : Doc) : List Mount → Option (Option String)
  | [] => some none
  | mount::rest =>
    if mount.mode ≠ .rw then check_mounts manifest rest
    else ((allowed_paths manifest).bind (covered mount.host)).bind fun found =>
      if found then check_mounts manifest rest
      else some (some s!"mount {repr mount.host} (rw) is not covered by any writable_paths glob")

def is_text (text : String) : JsonValue → Bool
  | .string s => s = text
  | _ => false

def manifest_network (manifest : Doc) : JsonValue := (manifest.get? "network").getD (.string "none")

def grants_gpu (manifest : Doc) : Bool := truthy ((manifest.get? "gpu").getD (.boolean false))

def verify_spec_against_manifest (spec : JobSpec) (manifest : Doc) : Option (Bool × String) :=
  (check_mounts repr manifest spec.mounts).map fun refusal => match refusal with
    | some reason => (false,reason)
    | none =>
      if spec.network = "bridge" ∧ is_text "none" (manifest_network manifest) = true then
        (false,"job requests network access but the manifest declares network: none")
      else if spec.gpu = true ∧ grants_gpu manifest = false then (false,"job requests GPU access but the manifest does not grant it")
      else (true,"ok")

end Check

/-! What `docker run` is given before the image. -/

def Mount.option (mount : Mount) : String := mount.host ++ ":" ++ mount.container ++ ":" ++ mount.mode.text

def run_options (spec : JobSpec) : List (String × String) :=
  [("--name","av-sandbox-" ++ spec.job_id),("--network",if spec.network ≠ "bridge" then "none" else "bridge")] ++
    (spec.cpu_limit.map fun limit => ("--cpus",limit)).toList ++
    (spec.memory_limit_mb.map fun limit => ("--memory",toString limit ++ "m")).toList ++
    (if spec.gpu then [("--gpus","all")] else []) ++ spec.mounts.map (fun mount => ("-v",mount.option)) ++
    spec.env.map (fun entry => ("-e",entry.1 ++ "=" ++ entry.2)) ++ (spec.cwd.map fun cwd => ("-w",cwd)).toList

/-- The image comes first in `command`. -/
def submit (spec : JobSpec) : List String :=
  ["docker","run","-d"] ++ (run_options spec).flatMap (fun option => [option.1,option.2]) ++ spec.command

/-! What a manifest grants. -/

/-- A directory, by the components on the way to it. -/
structure Place where
  components : List (List Char)
  plain : ∀ c ∈ components, '/' ∉ c

/-- Where a path leads, from the working directory on. -/
def host_place (cwd : Place) (host : String) : List (List Char) :=
  resolve (fun c => c = [] ∨ c = ['.']) (fun c => c = ['.','.']) (if host.toList.head? = some '/' then [] else cwd.components)
    (host.toList.splitOn '/')

def is_here : List Glob → Bool
  | [] => true
  | [.char '.'] => true
  | _ => false

def is_up : List Glob → Bool
  | [.char '.',.char '.'] => true
  | _ => false

def globs_of (pattern : String) : List Glob := translate pattern.toList.length pattern.toList

/-- The components that the paths under a glob have. -/
def glob_place (cwd : Place) (pattern : String) : List (List Glob) :=
  resolve is_here is_up (if (globs_of pattern).head?.any is_slash then [] else cwd.components.map fun c => c.map .char)
    (glob_components (globs_of pattern))

def globs_in (manifest : Doc) (pattern : String) : Prop := ∃ patterns, allowed_paths manifest = some patterns ∧ .string pattern ∈ patterns

/-- One component of the glob for each component of the path. -/
def Granted (cwd : Place) (manifest : Doc) (host : String) : Prop := ∃ pattern, globs_in manifest pattern ∧
  List.Forall₂ (fun globs name => matches_globs globs name = true) (glob_place cwd pattern) (host_place cwd host)

structure Contained (cwd : Place) (spec : JobSpec) (manifest : Doc) : Prop where
  mounts : ∀ mount ∈ spec.mounts, mount.mode = .rw → Granted cwd manifest mount.host
  network : ("--network","bridge") ∈ run_options spec → is_text "bridge" (manifest_network manifest) = true
  gpu : ("--gpus","all") ∈ run_options spec → grants_gpu manifest = true

/-! When the check is enough. -/

/-- The spelling matches a glob, and no glob before it is anything but a string. -/
def Spelled (manifest : Doc) (host : String) : Prop := ∃ before pattern after,
  allowed_paths manifest = some (before ++ .string pattern::after) ∧ (∀ value ∈ before, ∃ s, value = .string s) ∧
    fnmatch host.toList pattern.toList = true

/-- Some read-write mount is spelled as no glob matches it, or more is asked for than the manifest's words allow. -/
def Refused (spec : JobSpec) (manifest : Doc) : Prop :=
  (∃ mount ∈ spec.mounts, mount.mode = .rw ∧ ¬ Spelled manifest mount.host) ∨
    (spec.network = "bridge" ∧ is_text "none" (manifest_network manifest) = true) ∨ (spec.gpu = true ∧ grants_gpu manifest = false)

/-- Written out from the root, the path matches a glob of as many components. -/
def Level (cwd : Place) (manifest : Doc) (host : String) : Prop := ∃ pattern, globs_in manifest pattern ∧
  matches_globs (spelled (.char '/') (glob_place cwd pattern)) (spelled '/' (host_place cwd host)) = true ∧
    (glob_place cwd pattern).length = (host_place cwd host).length

/-- The network is one of the two that a manifest can name. -/
def Named (manifest : Doc) : Prop :=
  is_text "none" (manifest_network manifest) = true ∨ is_text "bridge" (manifest_network manifest) = true

/-! The check, read off its inputs. -/

theorem covered_iff (host : String) (patterns : List JsonValue) : covered host patterns = some true ↔ ∃ before pattern after,
    patterns = before ++ .string pattern::after ∧ (∀ value ∈ before, ∃ s, value = .string s) ∧
      fnmatch host.toList pattern.toList = true := by
  induction patterns with
  | nil => simp [covered]
  | cons value rest ih =>
    by_cases text : ∃ s, value = .string s
    · obtain ⟨s,rfl⟩ := text
      rw [covered]
      by_cases matched : fnmatch host.toList s.toList = true
      · rw [if_pos matched]
        exact ⟨fun _ => ⟨[],s,rest,rfl,fun value member => absurd member List.not_mem_nil,matched⟩,fun _ => rfl⟩
      · rw [if_neg matched,ih]
        constructor
        · intro found
          obtain ⟨before,pattern,after,rfl,strings,matched⟩ := found
          refine ⟨.string s::before,pattern,after,rfl,fun value member => ?_,matched⟩
          rcases List.mem_cons.mp member with rfl | member
          · exact ⟨s,rfl⟩
          · exact strings value member
        · intro found
          obtain ⟨before,pattern,after,split,strings,matched'⟩ := found
          cases before with
          | nil =>
            obtain ⟨same,-⟩ := List.cons.inj split
            exact absurd (JsonValue.string.inj same ▸ matched') matched
          | cons first before =>
            exact ⟨before,pattern,after,(List.cons.inj split).2,fun value member => strings value (List.mem_cons_of_mem _ member),matched'⟩
    · have raised : covered host (value::rest) = none := by
        cases value <;> first | rfl | exact absurd ⟨_,rfl⟩ text
      rw [raised]
      constructor
      · intro never
        contradiction
      · intro found
        obtain ⟨before,pattern,after,split,strings,-⟩ := found
        cases before with
        | nil => exact absurd ⟨pattern,(List.cons.inj split).1⟩ text
        | cons first before => exact absurd ((List.cons.inj split).1 ▸ strings first List.mem_cons_self) text

theorem spelled_iff (manifest : Doc) (host : String) :
    (allowed_paths manifest).bind (covered host) = some true ↔ Spelled manifest host := by
  rw [Spelled]
  cases allowed_paths manifest with
  | none => simp
  | some patterns =>
    rw [Option.bind_some,covered_iff]
    simp only [Option.some.injEq]

theorem check_mounts_iff (repr : String → String) (manifest : Doc) (mounts : List Mount) :
    check_mounts repr manifest mounts = some none ↔ ∀ mount ∈ mounts, mount.mode = .rw → Spelled manifest mount.host := by
  induction mounts with
  | nil => simp [check_mounts]
  | cons mount rest ih =>
    rw [List.forall_mem_cons,← ih,← spelled_iff,check_mounts]
    by_cases writable : mount.mode = .rw
    · rw [if_neg (not_not.mpr writable)]
      rcases found : (allowed_paths manifest).bind (covered mount.host) with _ | _ | _ <;> simp [writable]
    · rw [if_pos writable]
      simp [writable]

theorem verify_iff (repr : String → String) (spec : JobSpec) (manifest : Doc) :
    verify_spec_against_manifest repr spec manifest = some (true,"ok") ↔ ¬ Refused spec manifest := by
  have mounts : (∃ mount ∈ spec.mounts, mount.mode = .rw ∧ ¬ Spelled manifest mount.host) ↔
      ¬ check_mounts repr manifest spec.mounts = some none := by
    rw [check_mounts_iff]
    simp
  rw [Refused,mounts,verify_spec_against_manifest]
  rcases check_mounts repr manifest spec.mounts with _ | _ | reason
  · simp
  · by_cases network : spec.network = "bridge" ∧ is_text "none" (manifest_network manifest) = true
    · simp [network]
    · by_cases gpu : spec.gpu = true ∧ grants_gpu manifest = false
      · simp [network,gpu]
      · simp [network,gpu]
  · simp

/-! What the container gets. -/

theorem bridge_iff (spec : JobSpec) : ("--network","bridge") ∈ run_options spec ↔ spec.network = "bridge" := by
  by_cases bridge : spec.network = "bridge" <;> cases gpu : spec.gpu <;> simp [run_options,bridge,gpu]

theorem gpus_iff (spec : JobSpec) : ("--gpus","all") ∈ run_options spec ↔ spec.gpu = true := by
  cases gpu : spec.gpu <;> simp [run_options,gpu]

theorem split_option (mount : Mount) (host : ':' ∉ mount.host.toList) (container : ':' ∉ mount.container.toList) :
    mount.option.toList.splitOn ':' = [mount.host.toList,mount.container.toList,mount.mode.text.toList] := by
  have apart {cs : List Char} (none : ':' ∉ cs) : ∀ c ∈ cs, (c == ':') = false := by
    intro c member
    rw [beq_eq_false_iff_ne]
    intro same
    exact none (same ▸ member)
  have mode : ':' ∉ mount.mode.text.toList := by cases mount.mode <;> decide
  have spelling : mount.option.toList = mount.host.toList ++ ':' :: (mount.container.toList ++ ':' :: mount.mode.text.toList) := by
    simp [Mount.option]
  rw [spelling,List.splitOn_eq_splitOnP,List.splitOnP_append_cons_of_forall_mem (apart host) ':' rfl,
    List.splitOnP_append_cons_of_forall_mem (apart container) ':' rfl,List.splitOnP_eq_singleton (apart mode)]

/-- The option reads back as the mount that was checked. -/
theorem parse_mount_option {repr : String → String} {raw : String} {mount : Mount} (parsed : _parse_mount repr raw = .ok mount) :
    _parse_mount repr mount.option = .ok mount := by
  have plain : ∀ part ∈ (raw.toList.splitOn ':').map String.ofList, ':' ∉ part.toList := by
    intro part member
    obtain ⟨cs,inside,rfl⟩ := List.mem_map.mp member
    rw [List.splitOn_eq_splitOnP] at inside
    rw [String.toList_ofList]
    intro colon
    exact absurd (mem_splitOnP inside ':' colon) (by simp)
  have both : ':' ∉ mount.host.toList ∧ ':' ∉ mount.container.toList := by
    unfold _parse_mount at parsed
    split at parsed
    · rename_i parts
      rw [parts] at plain
      cases parsed
      exact ⟨plain _ (by simp),plain _ (by simp)⟩
    · rename_i parts
      rw [parts] at plain
      split at parsed
      · cases parsed
        exact ⟨plain _ (by simp),plain _ (by simp)⟩
      · split at parsed
        · cases parsed
          exact ⟨plain _ (by simp),plain _ (by simp)⟩
        · contradiction
    · contradiction
  rw [_parse_mount,split_option mount both.1 both.2]
  cases mount with
  | mk host container mode => cases mode <;> simp [MountMode.text,String.ofList_toList]

theorem host_place_plain (cwd : Place) (host : String) : ∀ c ∈ host_place cwd host, '/' ∉ c := by
  intro c member
  rcases mem_resolve _ _ member with base | component
  · split at base
    · contradiction
    · exact cwd.plain c base
  · rw [List.splitOn_eq_splitOnP] at component
    intro slash
    exact absurd (mem_splitOnP component '/' slash) (by simp)

theorem glob_place_plain (cwd : Place) (pattern : String) : ∀ g ∈ glob_place cwd pattern, ∀ glob ∈ g, is_slash glob = false := by
  intro g member
  rcases mem_resolve _ _ member with base | component
  · split at base
    · contradiction
    · obtain ⟨c,inside,rfl⟩ := List.mem_map.mp base
      intro glob within
      obtain ⟨first,found,rfl⟩ := List.mem_map.mp within
      rw [Bool.eq_false_iff]
      intro slash
      have same := slash_taken slash
      cases same
      exact cwd.plain c inside found
  · exact mem_splitOnP component

theorem level_iff (cwd : Place) (manifest : Doc) (host : String) : Level cwd manifest host ↔ Granted cwd manifest host := by
  constructor
  · intro level
    obtain ⟨pattern,listed,matched⟩ := level
    exact ⟨pattern,listed,(matches_spelled (glob_place_plain cwd pattern) (host_place_plain cwd host)).mp matched⟩
  · intro granted
    obtain ⟨pattern,listed,each⟩ := granted
    exact ⟨pattern,listed,(matches_spelled (glob_place_plain cwd pattern) (host_place_plain cwd host)).mpr each⟩

end AetherVault.Sandbox
