import AetherVault.Objects
import AetherVault.Lib.Runs

/-! Whole files on their way into the object store (`hash_and_publish_whole_file`): any number of workers,
each reading its file once while the file may change, and killed at any point. -/
namespace AetherVault.Publishing

open Lib Lib.Runs Hashing

/-- `hash_and_copy` of the native core, or the loop in Python that is run without it or after it failed. -/
inductive Route
  | native
  | python
  deriving DecidableEq

/-- A worker; what is carried along is all that its hash object was updated with. -/
inductive Phase
  | idle
  | copying (route : Route) (hashed : Bytes)
  | hashed (route : Route) (hashed : Bytes)
  | absent (route : Route) (hashed : Bytes)
  | returned (hashed : Bytes)
  | raised
  | killed
  deriving DecidableEq

variable {H : Type}

inductive Event
  | begin (i : Nat) (route : Route)
  | read (i : Nat) (chunk : Bytes)
  | fail (i : Nat)
  | finish (i : Nat)
  | look (i : Nat)
  | replace (i : Nat) (refused : Bool)
  | kill (i : Nat)

/-- The object files, the scratch files (each under a random name of its own), and the workers. -/
structure Store (H : Type) where
  objects : Dict H Bytes
  scratch : Nat × Route → Option Bytes
  phase : Nat → Phase

namespace Store

def empty : Store H := ⟨∅,fun _ => none,fun _ => .idle⟩

def goes (s : Store H) (i : Nat) (phase : Phase) : Store H := {s with phase := Function.update s.phase i phase}

def puts (s : Store H) (i : Nat) (route : Route) (content : Option Bytes) : Store H :=
  {s with scratch := Function.update s.scratch (i,route) content}

@[simp] theorem goes_phase (s : Store H) (i : Nat) (phase : Phase) : (s.goes i phase).phase i = phase := Function.update_self ..
@[simp] theorem goes_scratch (s : Store H) (i : Nat) (phase : Phase) : (s.goes i phase).scratch = s.scratch := rfl
@[simp] theorem goes_objects (s : Store H) (i : Nat) (phase : Phase) : (s.goes i phase).objects = s.objects := rfl
@[simp] theorem puts_phase (s : Store H) (i : Nat) (route : Route) (content : Option Bytes) :
    (s.puts i route content).phase = s.phase := rfl
@[simp] theorem puts_objects (s : Store H) (i : Nat) (route : Route) (content : Option Bytes) :
    (s.puts i route content).objects = s.objects := rfl
@[simp] theorem puts_same (s : Store H) (i : Nat) (route : Route) (content : Option Bytes) :
    (s.puts i route content).scratch (i,route) = content := Function.update_self ..

theorem puts_other (s : Store H) {i j : Nat} {route other : Route} (content : Option Bytes) (apart : (j,other) ≠ (i,route)) :
    (s.puts i route content).scratch (j,other) = s.scratch (j,other) := Function.update_of_ne apart ..

theorem puts_elsewhere (s : Store H) {i j : Nat} (apart : j ≠ i) (route : Route) (content : Option Bytes) (other : Route) :
    (s.puts i route content).scratch (j,other) = s.scratch (j,other) :=
  s.puts_other content fun same => apart (congrArg Prod.fst same)

theorem puts_route (s : Store H) (i : Nat) {route other : Route} (content : Option Bytes) (apart : other ≠ route) :
    (s.puts i route content).scratch (i,other) = s.scratch (i,other) :=
  s.puts_other content fun same => apart (congrArg Prod.snd same)

theorem goes_elsewhere (s : Store H) {i j : Nat} (apart : j ≠ i) (phase : Phase) : (s.goes i phase).phase j = s.phase j :=
  Function.update_of_ne apart ..

end Store

variable [DecidableEq H] [Hashing H]

namespace Store

def begin (s : Store H) (i : Nat) (route : Route) : Store H :=
  match s.phase i with
  | .idle => (s.puts i route (some [])).goes i (.copying route [])
  | _ => s

/-- The chunk is hashed and written. -/
def read (s : Store H) (i : Nat) (chunk : Bytes) : Store H :=
  match s.phase i with
  | .copying route hashed =>
    (s.puts i route ((s.scratch (i,route)).map (· ++ chunk))).goes i (.copying route (hashed ++ chunk))
  | _ => s

/-- What the native core cannot do is done again in Python, from the first byte on. -/
def fail (s : Store H) (i : Nat) : Store H :=
  match s.phase i with
  | .copying .native _ => ((s.puts i .native none).puts i .python (some [])).goes i (.copying .python [])
  | .copying .python _ => (s.puts i .python none).goes i .raised
  | _ => s

def finish (s : Store H) (i : Nat) : Store H :=
  match s.phase i with
  | .copying route hashed => s.goes i (.hashed route hashed)
  | _ => s

/-- `obj_path.exists()` -/
def look (s : Store H) (i : Nat) : Store H :=
  match s.phase i with
  | .hashed route hashed =>
    if s.objects.contains (sha256 hashed) then (s.puts i route none).goes i (.returned hashed)
    else s.goes i (.absent route hashed)
  | _ => s

/-- `_replace_or_accept_concurrent_publish`: a rename is refused where another one has the same target
(on Windows), or for a reason of its own. The native route has no `finally`. -/
def replace (s : Store H) (i : Nat) (refused : Bool) : Store H :=
  match s.phase i with
  | .absent route hashed =>
    match s.scratch (i,route) with
    | some content =>
      if refused = false then
        {(s.puts i route none).goes i (.returned hashed) with objects := s.objects.set (sha256 hashed) content}
      else if s.objects.contains (sha256 hashed) then (s.puts i route none).goes i (.returned hashed)
      else match route with
        | .native => s.goes i .raised
        | .python => (s.puts i .python none).goes i .raised
    | none => s.goes i (if s.objects.contains (sha256 hashed) then .returned hashed else .raised)
  | _ => s

def kill (s : Store H) (i : Nat) : Store H :=
  match s.phase i with
  | .returned _ | .raised => s
  | _ => s.goes i .killed

end Store

def step (s : Store H) : Event → Store H
  | .begin i route => s.begin i route
  | .read i chunk => s.read i chunk
  | .fail i => s.fail i
  | .finish i => s.finish i
  | .look i => s.look i
  | .replace i refused => s.replace i refused
  | .kill i => s.kill i

def run (events : List Event) : Store H := events.foldl step .empty

/-- What a scratch file holds of a worker: all that was hashed for it, until it is renamed or dropped. -/
def Kept (s : Store H) (i : Nat) : Phase → Prop
  | .copying route hashed | .hashed route hashed | .absent route hashed =>
    s.scratch (i,route) = some hashed ∧ ∀ other, other ≠ route → s.scratch (i,other) = none
  | .idle => ∀ route, s.scratch (i,route) = none
  | .returned hashed => s.objects.contains (sha256 hashed) = true ∧ ∀ route, s.scratch (i,route) = none
  | .raised | .killed => True

structure Sound (s : Store H) : Prop where
  named : ∀ h b, s.objects.get? h = some b → sha256 b = h
  kept : ∀ i, Kept s i (s.phase i)

open Store

/-- A step is one worker's: it leaves the others alone, loses no object and adds none of a wrong name. -/
structure Local (s t : Store H) (i : Nat) : Prop where
  phase : ∀ j, j ≠ i → t.phase j = s.phase j
  scratch : ∀ j, j ≠ i → ∀ route, t.scratch (j,route) = s.scratch (j,route)
  present : ∀ h, s.objects.contains h = true → t.objects.contains h = true

omit [Hashing H] in
theorem Local.refl (s : Store H) (i : Nat) : Local s s i := ⟨fun _ _ => rfl,fun _ _ _ => rfl,fun _ held => held⟩

omit [Hashing H] in
theorem Local.goes {s t : Store H} {i : Nat} (here : Local s t i) (phase : Phase) : Local s (t.goes i phase) i where
  phase j apart := (t.goes_elsewhere apart phase).trans (here.phase j apart)
  scratch := here.scratch
  present := here.present

omit [Hashing H] in
theorem Local.puts {s t : Store H} {i : Nat} (here : Local s t i) (route : Route) (content : Option Bytes) :
    Local s (t.puts i route content) i where
  phase := here.phase
  scratch j apart other := (t.puts_elsewhere apart route content other).trans (here.scratch j apart other)
  present := here.present

theorem Sound.moved {s t : Store H} {i : Nat} (sound : Sound s) (here : Local s t i)
    (named : ∀ h b, t.objects.get? h = some b → sha256 b = h) (kept : Kept t i (t.phase i)) : Sound t := by
  refine ⟨named,fun j => ?_⟩
  by_cases apart : j = i
  · exact apart ▸ kept
  · have before := sound.kept j
    have same := here.scratch j apart
    rw [here.phase j apart]
    cases at_ : s.phase j with
    | returned hashed =>
      rw [at_] at before
      exact ⟨here.present _ before.1,fun route => (same route).trans (before.2 route)⟩
    | copying | hashed | absent =>
      rw [at_] at before
      exact ⟨(same _).trans before.1,fun other apart => (same other).trans (before.2 other apart)⟩
    | idle =>
      rw [at_] at before
      exact fun route => (same route).trans (before route)
    | raised | killed => trivial

theorem Sound.unreplaced {s t : Store H} {i : Nat} (sound : Sound s) (here : Local s t i) (objects : t.objects = s.objects)
    (kept : Kept t i (t.phase i)) : Sound t :=
  sound.moved here (objects ▸ sound.named) kept

theorem begin_sound {s : Store H} (sound : Sound s) (i : Nat) (route : Route) : Sound (s.begin i route) := by
  have before := sound.kept i
  rw [Store.begin]
  cases at_ : s.phase i with
  | idle =>
    rw [at_] at before
    refine sound.unreplaced (((Local.refl s i).puts route _).goes _) rfl ?_
    rw [goes_phase]
    refine ⟨puts_same ..,fun other apart => ?_⟩
    exact (s.puts_route i _ apart).trans (before other)
  | _ => exact sound

theorem read_sound {s : Store H} (sound : Sound s) (i : Nat) (chunk : Bytes) : Sound (s.read i chunk) := by
  have before := sound.kept i
  rw [Store.read]
  cases at_ : s.phase i with
  | copying route hashed =>
    rw [at_] at before
    refine sound.unreplaced (((Local.refl s i).puts route _).goes _) rfl ?_
    rw [goes_phase]
    refine ⟨?_,fun other apart => ?_⟩
    · rw [goes_scratch,puts_same,before.1]
      rfl
    · exact (s.puts_route i _ apart).trans (before.2 other apart)
  | _ => exact sound

theorem fail_sound {s : Store H} (sound : Sound s) (i : Nat) : Sound (s.fail i) := by
  rw [Store.fail]
  cases at_ : s.phase i with
  | copying route hashed =>
    cases route with
    | native =>
      refine sound.unreplaced ((((Local.refl s i).puts _ _).puts _ _).goes _) rfl ?_
      rw [goes_phase]
      refine ⟨puts_same ..,fun other apart => ?_⟩
      rw [goes_scratch,puts_route _ i _ apart]
      cases other with
      | native => exact puts_same ..
      | python => exact absurd rfl apart
    | python =>
      refine sound.unreplaced (((Local.refl s i).puts _ _).goes _) rfl ?_
      rw [goes_phase]
      trivial
  | _ => exact sound

theorem finish_sound {s : Store H} (sound : Sound s) (i : Nat) : Sound (s.finish i) := by
  have before := sound.kept i
  rw [Store.finish]
  cases at_ : s.phase i with
  | copying route hashed =>
    rw [at_] at before
    refine sound.unreplaced ((Local.refl s i).goes _) rfl ?_
    rw [goes_phase]
    exact before
  | _ => exact sound

omit [DecidableEq H] [Hashing H] in
/-- Both files are gone once the only one that was left is dropped. -/
theorem dropped {s : Store H} {i : Nat} {route : Route} (others : ∀ other, other ≠ route → s.scratch (i,other) = none)
    (every : Route) : (s.puts i route none).scratch (i,every) = none := by
  by_cases same : every = route
  · rw [same,puts_same]
  · rw [puts_route s i none same]
    exact others every same

theorem look_sound {s : Store H} (sound : Sound s) (i : Nat) : Sound (s.look i) := by
  have before := sound.kept i
  rw [Store.look]
  cases at_ : s.phase i with
  | hashed route hashed =>
    rw [at_] at before
    by_cases there : s.objects.contains (sha256 hashed : H) = true
    · simp only [there,↓reduceIte]
      refine sound.unreplaced (((Local.refl s i).puts _ _).goes _) rfl ?_
      rw [goes_phase]
      exact ⟨there,dropped before.2⟩
    · simp only [there,Bool.false_eq_true,↓reduceIte]
      refine sound.unreplaced ((Local.refl s i).goes _) rfl ?_
      rw [goes_phase]
      exact before
  | _ => exact sound

theorem replace_sound {s : Store H} (sound : Sound s) (i : Nat) (refused : Bool) : Sound (s.replace i refused) := by
  have before := sound.kept i
  rw [Store.replace]
  cases at_ : s.phase i with
  | absent route hashed =>
    rw [at_] at before
    simp only [before.1]
    cases refused with
    | false =>
      simp only [↓reduceIte]
      refine sound.moved (i := i) ⟨fun j apart => ?_,fun j apart other => ?_,fun h held => ?_⟩ (fun h b found => ?_) ?_
      · exact goes_elsewhere _ apart _
      · exact puts_elsewhere s apart route none other
      · exact Dict.contains_set _ _ _ held
      · rw [Dict.get?_set] at found
        by_cases same : h = sha256 hashed
        · rw [if_pos same,Option.some.injEq] at found
          rw [← found,same]
        · rw [if_neg same] at found
          exact sound.named h b found
      · simp only [goes_phase]
        exact ⟨(Dict.contains_iff ..).mpr ⟨_,Dict.get?_set_same ..⟩,dropped before.2⟩
    | true =>
      by_cases there : s.objects.contains (sha256 hashed : H) = true
      · simp only [there,↓reduceIte,Bool.true_eq_false]
        refine sound.unreplaced (((Local.refl s i).puts _ _).goes _) rfl ?_
        rw [goes_phase]
        exact ⟨there,dropped before.2⟩
      · simp only [there,↓reduceIte,Bool.true_eq_false,Bool.false_eq_true]
        cases route with
        | native =>
          refine sound.unreplaced ((Local.refl s i).goes _) rfl ?_
          rw [goes_phase]
          trivial
        | python =>
          refine sound.unreplaced (((Local.refl s i).puts _ _).goes _) rfl ?_
          rw [goes_phase]
          trivial
  | _ => exact sound

theorem kill_sound {s : Store H} (sound : Sound s) (i : Nat) : Sound (s.kill i) := by
  have killed : Sound (s.goes i .killed) := by
    refine sound.unreplaced ((Local.refl s i).goes _) rfl ?_
    rw [goes_phase]
    trivial
  rw [Store.kill]
  cases s.phase i with
  | returned | raised => exact sound
  | _ => exact killed

theorem step_sound (s : Store H) (e : Event) (sound : Sound s) : Sound (step s e) := by
  cases e with
  | begin i route => exact begin_sound sound i route
  | read i chunk => exact read_sound sound i chunk
  | fail i => exact fail_sound sound i
  | finish i => exact finish_sound sound i
  | look i => exact look_sound sound i
  | replace i refused => exact replace_sound sound i refused
  | kill i => exact kill_sound sound i

theorem run_sound (events : List Event) : Sound (run events : Store H) := by
  refine run_holds step_sound ⟨fun h b found => ?_,fun i => ?_⟩ events
  · contradiction
  · exact fun route => rfl

theorem step_present (s : Store H) (e : Event) {h : H} (held : s.objects.contains h = true) :
    (step s e).objects.contains h = true := by
  cases e with
  | begin i route => rw [step,Store.begin]; split <;> exact held
  | read i chunk => rw [step,Store.read]; split <;> exact held
  | fail i => rw [step,Store.fail]; split <;> exact held
  | finish i => rw [step,Store.finish]; split <;> exact held
  | look i => rw [step,Store.look]; split <;> [split <;> exact held; exact held]
  | replace i refused =>
    rw [step,Store.replace]
    split
    · split
      · split
        · exact Dict.contains_set _ _ _ held
        · split <;> [exact held; split <;> exact held]
      · exact held
    · exact held
  | kill i => rw [step,Store.kill]; split <;> exact held

theorem run_present (later : List Event) {s : Store H} {h : H} (held : s.objects.contains h = true) :
    (later.foldl step s).objects.contains h = true :=
  run_holds (I := fun t : Store H => t.objects.contains h = true) (fun t e there => step_present t e there) held later

/-- What a worker has returned is in the store from then on, whole and under its own digest, and its
scratch files are gone. -/
theorem returned_whole (events later : List Event) {i : Nat} {hashed : Bytes}
    (returned : (run events : Store H).phase i = .returned hashed) :
    (∃ content, (run (events ++ later) : Store H).objects.get? (sha256 hashed) = some content ∧
      (sha256 content : H) = sha256 hashed) ∧ ∀ route, (run events : Store H).scratch (i,route) = none := by
  have kept := (run_sound (H := H) events).kept i
  rw [returned] at kept
  have held := run_present later kept.1
  have split : (run (events ++ later) : Store H) = later.foldl step (run events) := List.foldl_append ..
  rw [← split] at held
  obtain ⟨content,found⟩ := (Dict.contains_iff ..).mp held
  exact ⟨⟨content,found,(run_sound _).named _ _ found⟩,kept.2⟩

/-- Two workers with the same content; the second one's rename is refused. -/
def raced : List Event :=
  [.begin 0 .native,.begin 1 .python,.read 0 [1],.fail 0,.read 1 [1],.read 0 [1],.finish 1,.finish 0,.look 0,.look 1,
    .replace 0 false,.replace 1 true]

theorem returned_whole_raced :
    (∃ content, (run (raced ++ [.kill 2]) : Store Name).objects.get? (sha256 [1]) = some content ∧
      (sha256 content : Name) = sha256 [1]) ∧ ∀ route, (run raced : Store Name).scratch (1,route) = none := by
  exact returned_whole raced [.kill 2] (by decide +kernel)

/-- What a step brings into the store. -/
def placed (s : Store H) : Event → List Bytes
  | .replace i false =>
    match s.phase i with
    | .absent route _ => (s.scratch (i,route)).toList
    | _ => []
  | _ => []

def placements (s : Store H) : List Event → List Bytes
  | [] => []
  | e::events => placed s e ++ placements (step s e) events

def set_all (objects : Dict H Bytes) (blobs : List Bytes) : Dict H Bytes :=
  blobs.foldl (fun held b => held.set (sha256 b) b) objects

theorem set_all_present (blobs : List Bytes) (objects : Dict H Bytes) {h : H} (held : objects.contains h = true) :
    (set_all objects blobs).contains h = true := by
  induction blobs generalizing objects with
  | nil => exact held
  | cons b blobs ih => exact ih _ (Dict.contains_set _ _ _ held)

theorem set_all_holds {blobs : List Bytes} (objects : Dict H Bytes) {b : Bytes} (among : b ∈ blobs) :
    (set_all objects blobs).contains (sha256 b) = true := by
  induction blobs generalizing objects with
  | nil => contradiction
  | cons first blobs ih =>
    rcases List.mem_cons.mp among with rfl | among
    · exact set_all_present blobs _ ((Dict.contains_iff ..).mpr ⟨_,Dict.get?_set_same ..⟩)
    · exact ih _ among

theorem set_all_source (blobs : List Bytes) {objects : Dict H Bytes} {h : H} {content : Bytes}
    (found : (set_all objects blobs).get? h = some content) :
    content ∈ blobs ∧ sha256 content = h ∨ objects.get? h = some content := by
  induction blobs generalizing objects with
  | nil => exact .inr found
  | cons b blobs ih =>
    rcases ih found with ⟨among,named⟩ | before
    · exact .inl ⟨List.mem_cons_of_mem b among,named⟩
    · rw [Dict.get?_set] at before
      by_cases same : h = sha256 b
      · rw [if_pos same,Option.some.injEq] at before
        exact .inl ⟨before ▸ List.mem_cons_self,before ▸ same.symm⟩
      · rw [if_neg same] at before
        exact .inr before

theorem step_places {s : Store H} (sound : Sound s) (e : Event) : (step s e).objects = set_all s.objects (placed s e) := by
  cases e with
  | begin i route => rw [step,Store.begin]; split <;> rfl
  | read i chunk => rw [step,Store.read]; split <;> rfl
  | fail i => rw [step,Store.fail]; split <;> rfl
  | finish i => rw [step,Store.finish]; split <;> rfl
  | look i => rw [step,Store.look]; split <;> [split <;> rfl; rfl]
  | replace i refused =>
    have kept := sound.kept i
    cases refused with
    | false =>
      cases at_ : s.phase i with
      | absent route hashed =>
        rw [at_] at kept
        simp only [step,Store.replace,placed,at_,kept.1,↓reduceIte]
        rfl
      | _ =>
        simp only [step,Store.replace,placed,at_]
        rfl
    | true =>
      rw [step,Store.replace]
      split
      · split
        · split
          · contradiction
          · split
            · rfl
            · split <;> rfl
        · rfl
      · rfl
  | kill i => rw [step,Store.kill]; split <;> rfl

theorem run_places (events : List Event) {s : Store H} (sound : Sound s) :
    (events.foldl step s).objects = set_all s.objects (placements s events) := by
  induction events generalizing s with
  | nil => rfl
  | cons e events ih =>
    rw [List.foldl_cons,ih (step_sound s e sound),step_places sound e,placements,set_all,set_all,set_all,List.foldl_append]

/-- Whatever the interleaving, the store is the one that publishing the same contents one after the other
gives, in the order of their renames. -/
theorem run_linearizes (events : List Event) (collide : Set.InjOn (sha256 : Bytes → H) {b | b ∈ placements (H := H) .empty events})
    (h : H) : (run events : Store H).objects.get? h = (Objects.empty.publishAll (placements (H := H) .empty events)).get? h := by
  have objects : (run events : Store H).objects = set_all ∅ (placements (H := H) .empty events) :=
    run_places events (run_sound (H := H) [])
  rw [objects]
  have free : (Objects.empty : Objects H).CollisionFree {b | b ∈ placements (H := H) .empty events} := by
    rintro a (one | ⟨k,none⟩) b (two | ⟨k',none'⟩) same
    · exact collide one two same
    · contradiction
    · contradiction
    · contradiction
  cases found : (set_all (∅ : Dict H Bytes) (placements (H := H) .empty events)).get? h with
  | some content =>
    rcases set_all_source _ found with ⟨among,named⟩ | never
    · rw [← named,Objects.publishAll_exact _ _ _ (fun b inside => inside) free among]
    · contradiction
  | none =>
    cases published : (Objects.empty.publishAll (placements (H := H) .empty events)).get? h with
    | none => rfl
    | some content =>
      rcases Objects.get?_publishAll_source _ _ published with never | among
      · contradiction
      · have there := set_all_holds (H := H) ∅ among
        rw [Objects.get?_named _ published] at there
        rw [(Dict.contains_false ..).mpr found] at there
        contradiction

theorem run_linearizes_raced : (run raced : Store Name).objects.get? ⟨[1]⟩ =
    ((Objects.empty : Objects Name).publishAll (placements (H := Name) .empty raced)).get? ⟨[1]⟩ := by
  exact run_linearizes raced Name.sha256_injective.injOn ⟨[1]⟩

end AetherVault.Publishing
