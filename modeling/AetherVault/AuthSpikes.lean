import AetherVault.Lib.Dict
import AetherVault.Lib.FixedWindow
import AetherVault.Lib.Runs
import Mathlib.Data.List.Sort
import Mathlib.Data.List.Dedup
import Mathlib.Data.Nat.Cast.Order.Ring

/-! Bursts of failed authentications (`_note_auth_failure`, in memory): a table of recent failures for each
client, pruned as it grows, against a count over everything that ever failed. -/
namespace AetherVault.AuthSpikes

open Lib Lib.Runs

/-- A difference of readings that is rounded keeps to their order, in both of them. -/
structure Stopwatch (T : Type) [LinearOrder T] extends Clock T where
  shrinks : ∀ now {early late}, early ≤ late → since now late ≤ since now early

/-- `AV_ANOMALY_AUTH_SPIKE_*` and `AV_AUTH_SPIKE_MAX_KEYS`; what is below zero works as zero does. -/
structure Config where
  window_secs : Rat
  threshold : Nat
  max_keys : Nat

structure Failures (T : Type) where
  window : Dict String (List T)
  calls : Nat

def Failures.none {T : Type} : Failures T := ⟨∅,0⟩

variable {T : Type} [LinearOrder T] (watch : Stopwatch T) (config : Config)

def recent (now t : T) : Bool := watch.since now t < config.window_secs

def stale (now : T) (times : List T) : Bool :=
  match times.getLast? with
  | none => true
  | some last => !recent watch config now last

/-- The order of the newest failures, which a key without one comes before. -/
def older (a b : String × List T) : Bool :=
  match a.2.getLast?,b.2.getLast? with
  | some x,some y => x ≤ y
  | some _,none => false
  | none,_ => true

def _prune_auth_failure_window (window : Dict String (List T)) (now : T) : Dict String (List T) :=
  let live := window.filter fun _ times => !stale watch config now times
  let overflow := live.entries.length - config.max_keys
  let dropped := ((live.entries.insertionSort fun a b => older a b).take overflow).map Prod.fst
  live.filter fun key _ => !dropped.contains key

def _AUTH_FAILURE_PRUNE_EVERY : Nat := 256

def pruned (s : Failures T) (now : T) : Dict String (List T) :=
  if (s.calls + 1) % _AUTH_FAILURE_PRUNE_EVERY = 0 ∨ config.max_keys < s.window.entries.length then
    _prune_auth_failure_window watch config s.window now
  else s.window

/-- `window[:] = ...` and `window.append(now)` -/
def noted (s : Failures T) (now : T) (key : String) : List T :=
  (((pruned watch config s now).get? key).getD []).filter (recent watch config now) ++ [now]

/-- Whether this failure makes an anomaly, and the table after it. -/
def _note_auth_failure (s : Failures T) (now : T) (key : String) : Bool × Failures T :=
  let table := pruned watch config s now
  let times := noted watch config s now key
  if config.threshold ≤ times.length then (true,⟨table.erase key,s.calls + 1⟩)
  else (false,⟨table.set key times,s.calls + 1⟩)

def answers (s : Failures T) : List (T × String) → List Bool
  | [] => []
  | (now,key)::calls =>
    (_note_auth_failure watch config s now key).1::answers (_note_auth_failure watch config s now key).2 calls

/-! What is meant: all failures of a key since its last anomaly are known, and those in the window counted. -/

abbrev Since (T : Type) := String → List T

def expected (all : Since T) (now : T) (key : String) : Bool × Since T :=
  let spike := config.threshold ≤ ((all key).filter (recent watch config now)).length + 1
  (spike,Function.update all key (if spike then [] else all key ++ [now]))

def expected_answers (all : Since T) : List (T × String) → List Bool
  | [] => []
  | (now,key)::calls => (expected watch config all now key).1::expected_answers (expected watch config all now key).2 calls

/-- The clients with a failure in the window before a call. -/
def live_keys (before : List (T × String)) (now : T) : List String :=
  ((before.filter fun call => recent watch config now call.1).map Prod.snd).dedup

/-- The table has room for all clients that failed within the window. -/
def Roomy (calls : List (T × String)) : Prop :=
  ∀ before now key after, calls = before ++ (now,key)::after → (live_keys watch config before now).length ≤ config.max_keys

variable {watch config}

theorem recent_before {start early late : T} (order : early ≤ late) (still : recent watch config late start = true) :
    recent watch config early start = true := by
  simp only [recent,decide_eq_true_eq] at still ⊢
  exact lt_of_le_of_lt (watch.grows start order) still

theorem filter_recent {early late : T} (order : early ≤ late) (times : List T) :
    (times.filter (recent watch config early)).filter (recent watch config late) = times.filter (recent watch config late) := by
  rw [List.filter_filter]
  refine List.filter_congr fun t _ => ?_
  by_cases still : recent watch config late t = true
  · rw [still,recent_before order still]
    rfl
  · rw [Bool.eq_false_iff.mpr still]
    rfl

/-- Where the newest failure is past, all are. -/
theorem stale_filter {now late : T} {times : List T} (ordered : times.Pairwise (· ≤ ·)) (order : now ≤ late)
    (past : stale watch config now times = true) : times.filter (recent watch config late) = [] := by
  refine List.filter_eq_nil_iff.mpr fun t among still => ?_
  have now_still := recent_before order still
  rw [stale] at past
  cases newest : times.getLast? with
  | none =>
    rw [List.getLast?_eq_none_iff.mp newest] at among
    contradiction
  | some last =>
    rw [newest] at past
    obtain ⟨front,rfl⟩ := List.getLast?_eq_some_iff.mp newest
    have behind : t ≤ last := by
      rcases List.mem_append.mp among with among | here
      · exact (List.pairwise_append.mp ordered).2.2 t among last (List.mem_singleton_self last)
      · exact (List.mem_singleton.mp here).le
    simp only [recent,decide_eq_true_eq,Bool.not_eq_true',decide_eq_false_iff_not] at now_still past
    exact past (lt_of_le_of_lt (watch.shrinks now behind) now_still)

omit [LinearOrder T] in
theorem filter_get (window : Dict String (List T)) (keep : String → List T → Bool) (key : String) :
    (window.filter keep).get? key = none ∨ (window.filter keep).get? key = window.get? key := by
  rw [Dict.get?_filter]
  cases window.get? key with
  | none => exact .inl rfl
  | some times => cases kept : keep key times <;> simp [Option.filter,kept]

variable (watch config) in
/-- Pruning keeps a key's failures as they are, or drops them all. -/
theorem pruned_get (s : Failures T) (now : T) (key : String) :
    (pruned watch config s now).get? key = none ∨ (pruned watch config s now).get? key = s.window.get? key := by
  rw [pruned]
  split
  · rw [_prune_auth_failure_window]
    rcases filter_get (s.window.filter fun _ times => !stale watch config now times) _ key with gone | kept
    · exact .inl gone
    · rcases filter_get s.window (fun _ times => !stale watch config now times) key with gone | same
      · exact .inl (kept.trans gone)
      · exact .inr (kept.trans same)
  · exact .inr rfl

/-- The table holds true failures, each key's in the order they came in. -/
def Genuine (s : Failures T) (before : List (T × String)) : Prop :=
  ∀ key times, s.window.get? key = some times → times.Pairwise (· ≤ ·) ∧ ∀ t ∈ times, (t,key) ∈ before

theorem live_length {s : Failures T} {before : List (T × String)} (genuine : Genuine s before) (now : T) :
    (s.window.filter fun _ times => !stale watch config now times).entries.length ≤ (live_keys watch config before now).length := by
  rw [← List.length_map (f := Prod.fst)]
  refine List.Subperm.length_le (List.subperm_of_subset (Dict.distinct _) fun key among => ?_)
  obtain ⟨times,found⟩ := (Dict.mem_keys _ key).mp among
  rw [Dict.get?_filter,Option.filter_eq_some_iff] at found
  obtain ⟨found,fresh⟩ := found
  rw [stale] at fresh
  cases newest : times.getLast? with
  | none =>
    rw [newest] at fresh
    contradiction
  | some last =>
    rw [newest] at fresh
    have came := (genuine key times found).2 last (List.mem_of_getLast? newest)
    refine List.mem_dedup.mpr (List.mem_map.mpr ⟨(last,key),List.mem_filter.mpr ⟨came,?_⟩,rfl⟩)
    simpa using fresh

/-- What a key has within the window is still there where the table has room. -/
theorem pruned_recent {s : Failures T} {before : List (T × String)} (genuine : Genuine s before) {now : T}
    (room : (live_keys watch config before now).length ≤ config.max_keys) {late : T} (order : now ≤ late) (key : String) :
    (((pruned watch config s now).get? key).getD []).filter (recent watch config late) =
      ((s.window.get? key).getD []).filter (recent watch config late) := by
  rw [pruned]
  split
  · have none_dropped : (s.window.filter fun _ times => !stale watch config now times).entries.length - config.max_keys = 0 :=
      Nat.sub_eq_zero_of_le ((live_length genuine now).trans room)
    rw [_prune_auth_failure_window]
    simp only [none_dropped,List.take_zero,List.map_nil,Dict.get?_filter]
    cases found : s.window.get? key with
    | none => rfl
    | some times =>
      cases past : stale watch config now times with
      | false => simp [Option.filter,past]
      | true => simp [Option.filter,past,stale_filter (genuine key times found).1 order past]
  · rfl

/-- The table after a failure, key by key. -/
theorem note_get (s : Failures T) (now : T) (key other : String) :
    (_note_auth_failure watch config s now key).2.window.get? other =
      if other = key then
        if config.threshold ≤ (noted watch config s now key).length then none
        else some (noted watch config s now key)
      else (pruned watch config s now).get? other := by
  rw [_note_auth_failure]
  by_cases spike : config.threshold ≤ (noted watch config s now key).length
  · simp only [spike,↓reduceIte]
    exact Dict.get?_erase ..
  · simp only [spike,↓reduceIte]
    exact Dict.get?_set ..

theorem Genuine.of_pruned {s : Failures T} {before : List (T × String)} (genuine : Genuine s before) {now : T} {key : String}
    {times : List T} (found : (pruned watch config s now).get? key = some times) :
    times.Pairwise (· ≤ ·) ∧ ∀ t ∈ times, (t,key) ∈ before := by
  rcases pruned_get watch config s now key with gone | same
  · rw [gone] at found
    contradiction
  · exact genuine key times (same.symm.trans found)

theorem Genuine.note {s : Failures T} {before : List (T × String)} (genuine : Genuine s before) {now : T} (key : String)
    (latest : ∀ call ∈ before, call.1 ≤ now) : Genuine (_note_auth_failure watch config s now key).2 (before ++ [(now,key)]) := by
  intro other times found
  rw [note_get] at found
  by_cases here : other = key
  · subst here
    rw [if_pos rfl] at found
    split at found
    · contradiction
    · have kept : (((pruned watch config s now).get? other).getD []).Pairwise (· ≤ ·) ∧
          ∀ t ∈ ((pruned watch config s now).get? other).getD [], (t,other) ∈ before := by
        cases old : (pruned watch config s now).get? other with
        | none => exact ⟨.nil,fun t among => absurd among List.not_mem_nil⟩
        | some times => exact genuine.of_pruned old
      rw [← Option.some.inj found,noted]
      refine ⟨List.pairwise_append.mpr ⟨kept.1.filter _,List.pairwise_singleton _ _,fun t among late last => ?_⟩,fun t among => ?_⟩
      · rw [List.mem_singleton.mp last]
        exact latest _ (kept.2 t (List.mem_of_mem_filter among))
      · rcases List.mem_append.mp among with among | last
        · exact List.mem_append_left _ (kept.2 t (List.mem_of_mem_filter among))
        · rw [List.mem_singleton.mp last]
          exact List.mem_append_right _ (List.mem_singleton_self _)
  · rw [if_neg here] at found
    obtain ⟨ordered,among⟩ := genuine.of_pruned found
    exact ⟨ordered,fun t inside => List.mem_append_left _ (among t inside)⟩

/-- The table counts, for whatever window is still to come, what a table of all failures would. -/
def Counts (watch : Stopwatch T) (config : Config) (s : Failures T) (all : Since T) (before : List (T × String)) : Prop :=
  ∀ key late, (∀ call ∈ before, call.1 ≤ late) →
    ((s.window.get? key).getD []).filter (recent watch config late) = (all key).filter (recent watch config late)

theorem note_expected {s : Failures T} {all : Since T} {before : List (T × String)} {now : T} (key : String)
    (genuine : Genuine s before) (counts : Counts watch config s all before) (latest : ∀ call ∈ before, call.1 ≤ now)
    (room : (live_keys watch config before now).length ≤ config.max_keys) :
    (_note_auth_failure watch config s now key).1 = (expected watch config all now key).1 ∧
      Counts watch config (_note_auth_failure watch config s now key).2 (expected watch config all now key).2
        (before ++ [(now,key)]) := by
  have same (late : T) (order : now ≤ late) (other : String) :
      (((pruned watch config s now).get? other).getD []).filter (recent watch config late) =
        (all other).filter (recent watch config late) := by
    rw [pruned_recent genuine room order other]
    exact counts other late fun call among => (latest call among).trans order
  have length : (noted watch config s now key).length =
      ((all key).filter (recent watch config now)).length + 1 := by
    rw [noted,List.length_append,same now le_rfl key]
    rfl
  refine ⟨?_,fun other late after => ?_⟩
  · rw [_note_auth_failure,expected]
    rw [← length]
    by_cases spike : config.threshold ≤ (noted watch config s now key).length <;> simp [spike]
  · have order : now ≤ late := after _ (List.mem_append_right _ (List.mem_singleton_self _))
    rw [note_get,expected,length]
    dsimp only
    by_cases here : other = key
    · subst here
      rw [if_pos rfl,Function.update_self]
      by_cases spike : config.threshold ≤ ((all other).filter (recent watch config now)).length + 1
      · simp [spike]
      · simp only [spike,↓reduceIte,Option.getD_some,noted]
        rw [List.filter_append,List.filter_append,filter_recent order,same late order other]
    · rw [if_neg here,Function.update_of_ne here]
      exact same late order other

theorem answers_from {calls : List (T × String)} : ∀ {s : Failures T} {all : Since T} (before : List (T × String)),
    Genuine s before → Counts watch config s all before → ((before ++ calls).map Prod.fst).Pairwise (· ≤ ·) →
    (∀ past now key after, calls = past ++ (now,key)::after →
      (live_keys watch config (before ++ past) now).length ≤ config.max_keys) →
    answers watch config s calls = expected_answers watch config all calls := by
  induction calls with
  | nil => exact fun _ _ _ _ _ => rfl
  | cons call calls ih =>
    intro s all before genuine counts ordered room
    obtain ⟨now,key⟩ := call
    have latest (earlier : T × String) (among : earlier ∈ before) : earlier.1 ≤ now := by
      rw [List.map_append] at ordered
      exact (List.pairwise_append.mp ordered).2.2 _ (List.mem_map_of_mem among) now List.mem_cons_self
    have here := room [] now key calls rfl
    rw [List.append_nil] at here
    obtain ⟨same,next⟩ := note_expected key genuine counts latest here
    rw [answers,expected_answers,same]
    refine congrArg _ (ih _ (genuine.note key latest) next ?_ fun past now' key' after split => ?_)
    · rwa [List.append_assoc]
    · have later := room ((now,key)::past) now' key' after (congrArg _ split)
      rwa [List.append_assoc]

/-- As long as the table has room, an anomaly is raised exactly when the failures of a client since its
last one that are within the window reach the threshold: pruning is never seen. -/
theorem spikes_exact {calls : List (T × String)} (ordered : (calls.map Prod.fst).Pairwise (· ≤ ·))
    (roomy : Roomy watch config calls) :
    answers watch config .none calls = expected_answers watch config (fun _ => []) calls :=
  answers_from [] (fun _ _ found => absurd found (by simp [Failures.none]))
    (fun _ _ _ => rfl) ordered fun past now key after split => roomy past now key after split

theorem few_roomy {calls : List (T × String)} (few : calls.length ≤ config.max_keys) : Roomy watch config calls := by
  intro before now key after split
  have whole := congrArg List.length split
  rw [List.length_append] at whole
  have bound : (live_keys watch config before now).length ≤ before.length :=
    (List.dedup_sublist _).length_le.trans ((List.length_map ..).trans_le (List.length_filter_le ..))
  omega

theorem later_longer (start : Nat) {early late : Nat} (order : early ≤ late) :
    (early : Rat) - start ≤ (late : Rat) - start :=
  sub_le_sub_right (Nat.cast_le.mpr order) _

theorem earlier_longer (now : Nat) {early late : Nat} (order : early ≤ late) :
    (now : Rat) - late ≤ (now : Rat) - early :=
  sub_le_sub_left (Nat.cast_le.mpr order) _

/-- Readings in seconds. -/
def whole_seconds : Stopwatch Nat where
  since now start := (now : Rat) - start
  grows start _ _ order := later_longer start order
  shrinks now _ _ order := earlier_longer now order

theorem spikes_exact_twice :
    answers whole_seconds ⟨60,2,8⟩ .none [(1,"a"),(2,"b"),(3,"a"),(4,"a"),(70,"a")] =
      expected_answers whole_seconds ⟨60,2,8⟩ (fun _ => []) [(1,"a"),(2,"b"),(3,"a"),(4,"a"),(70,"a")] := by
  exact spikes_exact (by decide) (few_roomy (by decide))

/-! With clients beyond the table's room an anomaly can be missed, but none is made up. -/

variable (watch config) in
/-- A failure, beside all those of its key that came after the last anomaly. -/
def step (at_ : Failures T × Since T) (call : T × String) : Failures T × Since T :=
  let note := _note_auth_failure watch config at_.1 call.1 call.2
  (note.2,Function.update at_.2 call.2 (if note.1 then [] else at_.2 call.2 ++ [call.1]))

variable (watch config) in
def run (calls : List (T × String)) : Failures T × Since T := calls.foldl (step watch config) (.none,fun _ => [])

def Within (at_ : Failures T × Since T) : Prop := ∀ key, List.Sublist ((at_.1.window.get? key).getD []) (at_.2 key)

theorem pruned_within {at_ : Failures T × Since T} (within : Within at_) (now : T) (key : String) :
    List.Sublist (((pruned watch config at_.1 now).get? key).getD []) (at_.2 key) := by
  rcases pruned_get watch config at_.1 now key with gone | same
  · rw [gone]
    exact List.nil_sublist _
  · rw [same]
    exact within key

theorem step_within (at_ : Failures T × Since T) (call : T × String) (within : Within at_) : Within (step watch config at_ call) := by
  intro key
  rw [step]
  dsimp only
  rw [note_get]
  by_cases here : key = call.2
  · subst here
    rw [if_pos rfl,Function.update_self,_note_auth_failure]
    by_cases spike : config.threshold ≤ (noted watch config at_.1 call.1 call.2).length
    · simp [spike]
    · simp only [spike,↓reduceIte,Option.getD_some,Bool.false_eq_true]
      rw [noted]
      exact List.Sublist.append (List.filter_sublist.trans (pruned_within within call.1 call.2)) (List.Sublist.refl _)
  · rw [if_neg here,Function.update_of_ne here]
    exact pruned_within within call.1 key

variable (watch config) in
/-- Every anomaly stands for that many failures of its client within the window, none of which another
anomaly was raised for. -/
theorem spikes_backed (calls : List (T × String)) (now : T) (key : String)
    (spike : (_note_auth_failure watch config (run watch config calls).1 now key).1 = true) :
    config.threshold ≤ (((run watch config calls).2 key).filter (recent watch config now)).length + 1 := by
  have first : Within ((.none,fun _ => []) : Failures T × Since T) := fun _ => List.Sublist.refl []
  have within : Within (run watch config calls) := run_holds step_within first calls
  have counted : config.threshold ≤ (noted watch config (run watch config calls).1 now key).length := by
    by_contra few
    simp [_note_auth_failure,few] at spike
  refine counted.trans ?_
  rw [noted,List.length_append]
  exact Nat.succ_le_succ ((pruned_within within now key).filter _).length_le

theorem filter_dropped {α : Type} (items : List (String × α)) (n : Nat) :
    (items.filter fun item => !((items.take n).map Prod.fst).contains item.1).length ≤ items.length - n := by
  have first : (items.take n).filter (fun item => !((items.take n).map Prod.fst).contains item.1) = [] := by
    refine List.filter_eq_nil_iff.mpr fun item among kept => ?_
    simp only [Bool.not_eq_true',List.contains_eq_mem,decide_eq_false_iff_not] at kept
    exact kept (List.mem_map_of_mem among)
  calc (items.filter fun item => !((items.take n).map Prod.fst).contains item.1).length
      = ((items.take n ++ items.drop n).filter fun item => !((items.take n).map Prod.fst).contains item.1).length := by
        rw [List.take_append_drop]
    _ = ((items.drop n).filter fun item => !((items.take n).map Prod.fst).contains item.1).length := by
        rw [List.filter_append,first,List.nil_append]
    _ ≤ (items.drop n).length := List.length_filter_le ..
    _ = items.length - n := List.length_drop

theorem spikes_backed_twice :
    2 ≤ (((run whole_seconds ⟨60,2,8⟩ [(1,"a"),(2,"b")]).2 "a").filter (recent whole_seconds ⟨60,2,8⟩ 3)).length + 1 := by
  exact spikes_backed whole_seconds ⟨60,2,8⟩ [(1,"a"),(2,"b")] 3 "a" (by decide +kernel)

variable (watch config) in
/-- What pruning leaves is no more than the table may hold. -/
theorem pruned_length (s : Failures T) (now : T) : (pruned watch config s now).entries.length ≤ config.max_keys := by
  rw [pruned]
  split
  · rw [_prune_auth_failure_window]
    generalize s.window.filter (fun _ times => !stale watch config now times) = live
    have sorted := live.entries.perm_insertionSort fun a b => older a b
    have rest := filter_dropped (live.entries.insertionSort fun a b => older a b) (live.entries.length - config.max_keys)
    rw [Dict.filter]
    dsimp only
    rw [(sorted.filter _).symm.length_eq]
    rw [sorted.length_eq] at rest
    omega
  · rename_i small
    exact not_lt.mp fun big => small (.inr big)

omit [LinearOrder T] in
theorem set_length (window : Dict String (List T)) (key : String) (times : List T) :
    (window.set key times).entries.length ≤ window.entries.length + 1 := by
  have keys := congrArg List.length (Dict.assign_keys window.entries key times)
  rw [List.length_map] at keys
  rw [Dict.set,keys]
  split <;> simp

structure Small (config : Config) (s : Failures T) : Prop where
  keys : s.window.entries.length ≤ config.max_keys + 1
  times : ∀ key times, s.window.get? key = some times → times.length < config.threshold

theorem note_small {s : Failures T} (small : Small config s) (now : T) (key : String) :
    Small config (_note_auth_failure watch config s now key).2 := by
  have fits := pruned_length watch config s now
  refine ⟨?_,fun other times found => ?_⟩
  · rw [_note_auth_failure]
    by_cases spike : config.threshold ≤ (noted watch config s now key).length
    · simp only [spike,↓reduceIte]
      exact (List.length_filter_le ..).trans (fits.trans (Nat.le_succ _))
    · simp only [spike,↓reduceIte]
      exact (set_length ..).trans (Nat.succ_le_succ fits)
  · rw [note_get] at found
    by_cases here : other = key
    · rw [if_pos here] at found
      by_cases spike : config.threshold ≤ (noted watch config s now key).length
      · rw [if_pos spike] at found
        contradiction
      · rw [if_neg spike,Option.some.injEq] at found
        exact found ▸ not_le.mp spike
    · rw [if_neg here] at found
      rcases pruned_get watch config s now other with gone | same
      · rw [gone] at found
        contradiction
      · exact small.times other times (same.symm.trans found)

/-- However many clients fail, the table keeps to its size, and so does each list in it. -/
theorem table_bounded (calls : List (T × String)) : Small config (run watch config calls).1 := by
  refine run_holds (I := fun at_ : Failures T × Since T => Small config at_.1) (fun at_ call small => ?_) ?_ calls
  · exact note_small small call.1 call.2
  · exact ⟨Nat.zero_le _,fun key times found => absurd found (by simp [Failures.none])⟩

end AetherVault.AuthSpikes
