import AetherVault.Identity
import AetherVault.LocalObjects

/-! `av fetch`: which parts of the tree at HEAD are wanted, and what is downloaded of them, in any order in which the
downloads come to an end. -/
namespace AetherVault.SelectiveFetch

open Lib Hashing LocalObjects
open Identity (sorted_set)

variable {H : Type} [DecidableEq H] [Hashing H]

inductive FetchError (H : Type)
  | nothing_named
  | layers_of_many
  | not_tracked (paths : List Path)
  | unpacking
  | unknown_layers (rel : Path) (unknown available : List String)
  | unreachable
  | unrecoverable (missing : List H)
  | failed (h : H) (rel : Path)

structure Targets where
  rel_paths : List Path
  fetch_all : Bool
  layer_names : List String

def selected_entries (tree : Tree H) (t : Targets) : Tree H :=
  if t.fetch_all then tree
  else Dict.ofList (t.rel_paths.filterMap fun rel => (tree.get? rel).map fun info => (rel,info))

def restricted (names : List String) (info : TreeEntry H) : TreeEntry H :=
  {info with layers := info.layers.filter fun layer => decide (layer.name ∈ names)}

def resolve_fetch_targets (tree : Tree H) (t : Targets) : Except (FetchError H) (Tree H) :=
  if !t.fetch_all && t.rel_paths.isEmpty then .error .nothing_named
  else if !t.layer_names.isEmpty && (t.fetch_all || !t.rel_paths.isEmpty && t.rel_paths.length != 1) then .error .layers_of_many
  else
    let not_tracked := t.rel_paths.filter fun rel => !tree.contains rel
    if !t.fetch_all && !not_tracked.isEmpty then .error (.not_tracked not_tracked)
    else if t.layer_names.isEmpty then .ok (selected_entries tree t)
    else match (selected_entries tree t).entries with
      | [(rel,info)] =>
        let available := sorted_set (info.layers.map Layer.name)
        let unknown := sorted_set (t.layer_names.filter fun name => decide (name ∉ available))
        if unknown.isEmpty then .ok (Dict.ofList [(rel,restricted t.layer_names info)])
        else .error (.unknown_layers rel unknown available)
      | _ => .error .unpacking

structure Part (H : Type) where
  rel : Path
  hash : H
  size : Nat

def entry_parts (rel : Path) (info : TreeEntry H) : List (Part H) :=
  let parts : List (Part H) := info.layers.map (fun part => ⟨rel,part.hash,part.size⟩) ++
    info.chunks.map fun part => ⟨rel,part.hash,part.size⟩
  if !parts.isEmpty then parts
  else match info.hash with
    | .sha h => [⟨rel,h,info.size⟩]
    | _ => []

def wanted_parts (selected : Tree H) : List (Part H) := selected.entries.flatMap fun item => entry_parts item.1 item.2

/-- The registry during one fetch: what each download brings, and the order in which they come to an end. -/
structure Remote (H : Type) where
  server_available : Bool
  batch_check_objects : List H → List H
  answers : Nat → Option Bytes
  order : List Nat

structure Report (H : Type) where
  fetched : List (Part H)
  already_local : Nat
  bytes : Nat

/-- One download: nothing is published but content that hashes to its name. -/
def download (to_download : List (Part H)) (answers : Nat → Option Bytes) (files : CasFiles H) (i : Nat) : CasFiles H :=
  match to_download[i]? with
  | none => files
  | some part => match download_object part.hash (answers i) with
    | none => files
    | some content => files.set part.hash content

def download_selected_objects (files : CasFiles H) (remote : Remote H) (selected : Tree H) :
    CasFiles H × Except (FetchError H) (Report H) :=
  let to_download := (wanted_parts selected).filter fun part => !files.contains part.hash
  let already_local := ((wanted_parts selected).filter fun part => files.contains part.hash).length
  if to_download.isEmpty then (files,.ok ⟨[],already_local,0⟩)
  else if !remote.server_available then (files,.error .unreachable)
  else
    let missing_hashes := (to_download.map Part.hash).eraseDups
    let found := remote.batch_check_objects missing_hashes
    let unrecoverable := missing_hashes.filter fun h => decide (h ∉ found)
    if !unrecoverable.isEmpty then (files,.error (.unrecoverable unrecoverable))
    else
      (remote.order.foldl (download to_download remote.answers) files,
        match to_download.zipIdx.find? fun item => (download_object item.1.hash (remote.answers item.2)).isNone with
        | some item => .error (.failed item.1.hash item.1.rel)
        | none => .ok ⟨to_download,already_local,(to_download.map Part.size).sum⟩)

def fetch (tree : Tree H) (t : Targets) (files : CasFiles H) (remote : Remote H) : CasFiles H × Except (FetchError H) (Report H) :=
  match resolve_fetch_targets tree t with
  | .error e => (files,.error e)
  | .ok selected => download_selected_objects files remote selected

/-! Which parts are wanted. -/

/-- The entry of a path as the request sees it. -/
def narrowed (t : Targets) (info : TreeEntry H) : TreeEntry H :=
  if t.layer_names.isEmpty then info else restricted t.layer_names info

omit [DecidableEq H] [Hashing H] in
theorem selected_get? {tree : Tree H} {t : Targets} {rel : Path} {info : TreeEntry H} :
    (selected_entries tree t).get? rel = some info ↔ tree.get? rel = some info ∧ (t.fetch_all = true ∨ rel ∈ t.rel_paths) := by
  rw [selected_entries]
  split
  · rename_i all
    simp [all]
  · rename_i named
    have some_of {info : TreeEntry H} (found : (Dict.ofList (t.rel_paths.filterMap fun rel =>
        (tree.get? rel).map fun info => (rel,info))).get? rel = some info) : tree.get? rel = some info ∧ rel ∈ t.rel_paths := by
      obtain ⟨rel',among,same⟩ := List.mem_filterMap.mp (Dict.get?_ofList found)
      obtain ⟨info',held,pair⟩ := Option.map_eq_some_iff.mp same
      obtain ⟨rfl,rfl⟩ := Prod.mk.inj pair
      exact ⟨held,among⟩
    constructor
    · intro found
      exact ⟨(some_of found).1,.inr (some_of found).2⟩
    · rintro ⟨held,among⟩
      have listed : (rel,info) ∈ t.rel_paths.filterMap fun rel => (tree.get? rel).map fun info => (rel,info) :=
        List.mem_filterMap.mpr ⟨rel,among.resolve_left (by simpa using named),by rw [held]; rfl⟩
      obtain ⟨other,found⟩ := (Dict.contains_iff _ _).mp (Dict.contains_ofList listed)
      have same := (some_of found).1
      rw [held] at same
      rw [found,Option.some.inj same]

omit [DecidableEq H] [Hashing H] in
/-- A request that is granted wants the named entries, narrowed to the named layers. -/
theorem resolved_get? {tree selected : Tree H} {t : Targets} (resolved : resolve_fetch_targets tree t = .ok selected)
    {rel : Path} {info : TreeEntry H} : selected.get? rel = some info ↔
      ∃ whole, tree.get? rel = some whole ∧ (t.fetch_all = true ∨ rel ∈ t.rel_paths) ∧ narrowed t whole = info := by
  have by_entry : (∃ whole, tree.get? rel = some whole ∧ (t.fetch_all = true ∨ rel ∈ t.rel_paths) ∧ narrowed t whole = info) ↔
      ∃ whole, (selected_entries tree t).get? rel = some whole ∧ narrowed t whole = info := by
    simp only [selected_get?,and_assoc]
  rw [by_entry]
  simp only [resolve_fetch_targets] at resolved
  split at resolved
  · contradiction
  · split at resolved
    · contradiction
    · split at resolved
      · contradiction
      · split at resolved
        · rename_i all_layers
          obtain rfl := Except.ok.inj resolved
          simp [narrowed,all_layers]
        · rename_i some_layers
          split at resolved
          · rename_i rel' whole one
            split at resolved
            · obtain rfl := Except.ok.inj resolved
              have only (info : TreeEntry H) : (Dict.ofList [(rel',info)]).entries = [(rel',info)] :=
                Dict.entries_ofList (List.nodup_singleton rel')
              simp only [← Dict.mem_entries,only,one,List.mem_singleton,Prod.mk.injEq,narrowed,if_neg some_layers]
              constructor
              · rintro ⟨rfl,rfl⟩
                exact ⟨whole,⟨rfl,rfl⟩,rfl⟩
              · rintro ⟨_,⟨rfl,rfl⟩,rfl⟩
                exact ⟨rfl,rfl⟩
            · contradiction
          · contradiction

/-! What is downloaded. -/

variable (to_download : List (Part H)) (answers : Nat → Option Bytes) (files : CasFiles H)

theorem download_eq (i : Nat) : download to_download answers files i = files ∨
    ∃ part content, to_download[i]? = some part ∧ download_object part.hash (answers i) = some content ∧
      download to_download answers files i = files.set part.hash content := by
  rw [download]
  cases there : to_download[i]? with
  | none => exact .inl rfl
  | some part =>
    simp only
    cases brought : download_object part.hash (answers i) with
    | none => exact .inl rfl
    | some content => exact .inr ⟨part,content,rfl,brought,rfl⟩

theorem downloads_get? (order : List Nat) (h : H) : (order.foldl (download to_download answers) files).get? h = files.get? h ∨
    ∃ part content, part ∈ to_download ∧ part.hash = h ∧
      (order.foldl (download to_download answers) files).get? h = some content ∧ sha256 content = h := by
  induction order generalizing files with
  | nil => exact .inl rfl
  | cons i order ih =>
    rw [List.foldl_cons]
    rcases ih (download to_download answers files i) with same | new
    · rcases download_eq to_download answers files i with kept | ⟨part,content,there,brought,set⟩
      · rw [same,kept]
        exact .inl rfl
      · by_cases here : h = part.hash
        · subst here
          refine .inr ⟨part,content,List.mem_of_getElem? there,rfl,?_,?_⟩
          · rw [same,set,Dict.get?_set_same]
          · exact of_decide_eq_true (Option.filter_eq_some_iff.mp brought).2
        · rw [same,set,Dict.get?_set_other _ _ _ _ here]
          exact .inl rfl
    · exact .inr new

variable {to_download answers files}

theorem downloads_keep (order : List Nat) {h : H} (held : files.contains h = true) :
    (order.foldl (download to_download answers) files).contains h = true := by
  rcases downloads_get? to_download answers files order h with same | ⟨_,content,_,_,new,_⟩
  · rw [Dict.contains,same]
    exact held
  · rw [Dict.contains,new]
    rfl

theorem downloads_contain {order : List Nat} {i : Nat} (among : i ∈ order) {part : Part H} (there : to_download[i]? = some part)
    {content : Bytes} (verified : download_object part.hash (answers i) = some content) :
    (order.foldl (download to_download answers) files).contains part.hash = true := by
  induction order generalizing files with
  | nil => exact absurd among List.not_mem_nil
  | cons k order ih =>
    rw [List.foldl_cons]
    rcases List.mem_cons.mp among with rfl | later
    · refine downloads_keep order ?_
      have set : download to_download answers files i = files.set part.hash content := by
        simp only [download,there,verified]
      rw [set,Dict.contains,Dict.get?_set_same]
      rfl
    · exact ih later

/-! A fetch. -/

def pending (files : CasFiles H) (selected : Tree H) : List (Part H) :=
  (wanted_parts selected).filter fun part => !files.contains part.hash

/-- The part belongs to an entry that was asked for, and to one of its layers that were. -/
def Wanted (tree : Tree H) (t : Targets) (part : Part H) : Prop :=
  ∃ rel whole, tree.get? rel = some whole ∧ (t.fetch_all = true ∨ rel ∈ t.rel_paths) ∧ part ∈ entry_parts rel (narrowed t whole)

omit [DecidableEq H] [Hashing H] in
theorem mem_wanted {tree selected : Tree H} {t : Targets} (resolved : resolve_fetch_targets tree t = .ok selected) (part : Part H) :
    part ∈ wanted_parts selected ↔ Wanted tree t part := by
  simp only [wanted_parts,List.mem_flatMap,Wanted]
  constructor
  · rintro ⟨item,among,inside⟩
    obtain ⟨whole,held,asked,same⟩ := (resolved_get? resolved).mp ((Dict.mem_entries _ _ _).mp among)
    exact ⟨item.1,whole,held,asked,same ▸ inside⟩
  · rintro ⟨rel,whole,held,asked,inside⟩
    have found := (resolved_get? resolved).mpr ⟨whole,held,asked,rfl⟩
    exact ⟨(rel,narrowed t whole),(Dict.mem_entries _ _ _).mpr found,inside⟩

/-- What a download run can come to. -/
theorem download_selected_cases (files : CasFiles H) (remote : Remote H) (selected : Tree H) :
    (download_selected_objects files remote selected).1 = files ∧
        (∀ report, (download_selected_objects files remote selected).2 = .ok report → pending files selected = [] ∧
          report = ⟨[],((wanted_parts selected).filter fun part => files.contains part.hash).length,0⟩) ∨
      (download_selected_objects files remote selected).1 = remote.order.foldl (download (pending files selected) remote.answers) files ∧
        ∀ report, (download_selected_objects files remote selected).2 = .ok report →
          (∀ i part, (pending files selected)[i]? = some part → (download_object part.hash (remote.answers i)).isSome = true) ∧
          report = ⟨pending files selected,((wanted_parts selected).filter fun part => files.contains part.hash).length,
            ((pending files selected).map Part.size).sum⟩ := by
  simp only [download_selected_objects,pending]
  split
  · rename_i nothing
    refine .inl ⟨rfl,fun report done => ?_⟩
    exact ⟨List.isEmpty_iff.mp nothing,(Except.ok.inj done).symm⟩
  · split
    · exact .inl ⟨rfl,fun report done => absurd done (by simp)⟩
    · split
      · exact .inl ⟨rfl,fun report done => absurd done (by simp)⟩
      · refine .inr ⟨rfl,fun report done => ?_⟩
        split at done
        · contradiction
        · rename_i all_came
          refine ⟨fun i part there => ?_,(Except.ok.inj done).symm⟩
          have came := List.find?_eq_none.mp all_came (part,i) (List.mem_zipIdx_iff_getElem?.mpr there)
          simpa [Option.isSome_iff_ne_none] using came

theorem fetch_resolved {tree selected : Tree H} {t : Targets} (files : CasFiles H) (remote : Remote H)
    (resolved : resolve_fetch_targets tree t = .ok selected) :
    fetch tree t files remote = download_selected_objects files remote selected := by
  rw [fetch,resolved]

omit [Hashing H] in
theorem mem_pending {files : CasFiles H} {selected : Tree H} {part : Part H} :
    part ∈ pending files selected ↔ part ∈ wanted_parts selected ∧ files.contains part.hash = false := by
  simp [pending]

theorem all_local {files : CasFiles H} {remote : Remote H} {selected : Tree H} {report : Report H}
    (ordered : remote.order.Perm (List.range (pending files selected).length))
    (done : (download_selected_objects files remote selected).2 = .ok report) {part : Part H} (wanted : part ∈ wanted_parts selected) :
    (download_selected_objects files remote selected).1.contains part.hash = true := by
  rcases download_selected_cases files remote selected with ⟨same,all⟩ | ⟨after,all⟩
  · rw [same]
    by_contra absent
    have waits := mem_pending.mpr ⟨wanted,Bool.eq_false_iff.mpr absent⟩
    rw [(all report done).1] at waits
    exact absurd waits List.not_mem_nil
  · rw [after]
    cases held : files.contains part.hash with
    | true => exact downloads_keep remote.order held
    | false =>
      obtain ⟨i,small,there⟩ := List.mem_iff_getElem.mp (mem_pending.mpr ⟨wanted,held⟩)
      have at_i : (pending files selected)[i]? = some part := by rw [List.getElem?_eq_getElem small,there]
      obtain ⟨content,verified⟩ := Option.isSome_iff_exists.mp ((all report done).1 i part at_i)
      exact downloads_contain (ordered.mem_iff.mpr (List.mem_range.mpr small)) at_i verified

theorem report_eq {files : CasFiles H} {remote : Remote H} {selected : Tree H} {report : Report H}
    (done : (download_selected_objects files remote selected).2 = .ok report) :
    report.fetched = pending files selected ∧ report.bytes = ((pending files selected).map Part.size).sum ∧
      report.already_local = ((wanted_parts selected).filter fun part => files.contains part.hash).length := by
  rcases download_selected_cases files remote selected with ⟨_,all⟩ | ⟨_,all⟩
  · obtain ⟨nothing,rfl⟩ := all report done
    rw [nothing]
    exact ⟨rfl,rfl,rfl⟩
  · obtain ⟨_,rfl⟩ := all report done
    exact ⟨rfl,rfl,rfl⟩

/-- A fetch that reports has every wanted part at home, and reports the ones that were not there before, in the order of the
request and each with its size. -/
theorem fetch_exact {tree : Tree H} {t : Targets} {files : CasFiles H} {remote : Remote H} {report : Report H}
    (ordered : ∀ selected, resolve_fetch_targets tree t = .ok selected → remote.order.Perm (List.range (pending files selected).length))
    (done : (fetch tree t files remote).2 = .ok report) :
    (∀ part, Wanted tree t part → (fetch tree t files remote).1.contains part.hash = true) ∧
      (∀ part, part ∈ report.fetched ↔ Wanted tree t part ∧ files.contains part.hash = false) ∧
      report.bytes = (report.fetched.map Part.size).sum ∧
      ∃ selected, resolve_fetch_targets tree t = .ok selected ∧ report.fetched.Sublist (wanted_parts selected) ∧
        report.already_local + report.fetched.length = (wanted_parts selected).length := by
  cases resolved : resolve_fetch_targets tree t with
  | error e =>
    rw [fetch,resolved] at done
    contradiction
  | ok selected =>
    rw [fetch_resolved files remote resolved] at done ⊢
    obtain ⟨fetched,bytes,local_⟩ := report_eq done
    refine ⟨fun part wanted => ?_,fun part => ?_,?_,selected,rfl,?_,?_⟩
    · exact all_local (ordered selected resolved) done ((mem_wanted resolved part).mpr wanted)
    · rw [fetched,mem_pending,mem_wanted resolved]
    · rw [bytes,fetched]
    · rw [fetched]
      exact List.filter_sublist
    · rw [local_,fetched,pending]
      exact (List.length_eq_length_filter_add _).symm

def one_file : Tree Name := Dict.ofList [(["f"],⟨.sha (sha256 [1]),1,.code,[],[]⟩)]

def willing : Remote Name := ⟨true,id,fun _ => some [1],[0]⟩

theorem fetch_exact_file : (fetch one_file ⟨[["f"]],false,[]⟩ ∅ willing).1.contains (sha256 [1]) = true := by
  have wanted : Wanted one_file ⟨[["f"]],false,[]⟩ ⟨["f"],sha256 [1],1⟩ :=
    ⟨["f"],_,rfl,.inr List.mem_cons_self,List.mem_cons_self⟩
  refine (fetch_exact (t := ⟨[["f"]],false,[]⟩) (fun selected resolved => ?_) rfl).1 _ wanted
  rw [← Except.ok.inj resolved]
  exact List.Perm.refl _

/-- Whatever becomes of a fetch, the objects that were there are there as they were, and all that has come is content of
wanted parts under its own digest. -/
theorem fetch_untouched (tree : Tree H) (t : Targets) (files : CasFiles H) (remote : Remote H) (h : H) :
    (files.contains h = true → (fetch tree t files remote).1.get? h = files.get? h) ∧
      ∀ content, (fetch tree t files remote).1.get? h = some content → files.get? h = some content ∨
        sha256 content = h ∧ ∃ part, Wanted tree t part ∧ part.hash = h := by
  cases resolved : resolve_fetch_targets tree t with
  | error e =>
    rw [fetch,resolved]
    exact ⟨fun _ => rfl,fun _ held => .inl held⟩
  | ok selected =>
    rw [fetch_resolved files remote resolved]
    rcases download_selected_cases files remote selected with ⟨same,_⟩ | ⟨after,_⟩
    · rw [same]
      exact ⟨fun _ => rfl,fun _ held => .inl held⟩
    · rw [after]
      rcases downloads_get? (pending files selected) remote.answers files remote.order h with same | ⟨part,content,waits,rfl,new,digest⟩
      · rw [same]
        exact ⟨fun _ => rfl,fun _ held => .inl held⟩
      · obtain ⟨wanted,absent⟩ := mem_pending.mp waits
        refine ⟨fun held => ?_,fun content' found => .inr ⟨?_,part,(mem_wanted resolved part).mp wanted,rfl⟩⟩
        · rw [absent] at held
          contradiction
        · rw [new] at found
          rw [← Option.some.inj found]
          exact digest

end AetherVault.SelectiveFetch
