import AetherVault.Doctor
import Mathlib.Data.List.Infix

/-! The files under `.av` while they are repaired: where the objects lie, what a download does, and what goes with the
temporary files. -/
namespace AetherVault.Doctor
open Lib Lib.CodePoints Lib.FileTree

/-! Paths that are made of a digest. -/

theorem digit_plain (a b c d : Bool) : (SecureHash.value [a,b,c,d]).digitChar.toNat ≠ 46 ∧
    (SecureHash.value [a,b,c,d]).digitChar.toNat ≠ 47 := by
  cases a <;> cases b <;> cases c <;> cases d <;> decide

theorem hexdigest_plain {content : Bytes} {c : Nat} (member : c ∈ hexdigest content) : c ≠ 46 ∧ c ≠ 47 := by
  obtain ⟨digit,found,rfl⟩ := List.mem_map.mp member
  clear member
  generalize SecureHash.digest (SecureHash.bits content) = text at found
  induction text using SecureHash.hexadecimal.induct with
  | case1 a b c d rest ih =>
    rw [SecureHash.hexadecimal] at found
    rcases List.mem_cons.mp found with rfl | found
    · exact digit_plain a b c d
    · exact ih found
  | case2 text short =>
    rw [SecureHash.hexadecimal] at found
    · contradiction
    · exact short

theorem hexdigest_length (content : Bytes) : (hexdigest content).length = 64 := by
  rw [hexdigest,List.length_map,SecureHash.length_hexadecimal,SecureHash.length_digest]

theorem components_plain {text : Str} (slash : 47 ∉ text) (filled : text ≠ []) (dot : text ≠ lit ".") :
    components text = [text] := by
  simp [components,split_none slash,filled,dot]

theorem join_plain {text : Str} (slash : 47 ∉ text) (filled : text ≠ []) (dot : text ≠ lit ".") (route : Route) :
    route.join text = ⟨route.start,route.rest ++ [text]⟩ := by
  have relative : text.head? ≠ some 47 := fun first => slash (List.mem_of_head? first)
  rw [Route.join,if_neg relative,components_plain slash filled dot]

theorem dot_mem {text : Str} (dotless : 46 ∉ text) : text ≠ lit "." ∧ text ≠ up := by
  constructor
  · intro same
    rw [same] at dotless
    contradiction
  · intro same
    rw [same] at dotless
    contradiction

section Places

variable (w : Surroundings)

def object_place (h : Str) : List Str := w.av_dir ++ [lit "objects",h.take 2,h.drop 2]

/-- A piece of a digest is a name of its own. -/
theorem piece_plain {content : Bytes} {piece : Str} (sub : piece.Sublist (hexdigest content)) (filled : piece ≠ []) :
    47 ∉ piece ∧ piece ≠ [] ∧ piece ≠ lit "." ∧ piece ≠ up := by
  have dotless : 46 ∉ piece := fun dot => (hexdigest_plain (sub.subset dot)).1 rfl
  exact ⟨fun slash => (hexdigest_plain (sub.subset slash)).2 rfl,filled,dot_mem dotless⟩

theorem first_plain (content : Bytes) : 47 ∉ (hexdigest content).take 2 ∧ (hexdigest content).take 2 ≠ [] ∧
    (hexdigest content).take 2 ≠ lit "." ∧ (hexdigest content).take 2 ≠ up := by
  refine piece_plain (List.take_sublist 2 _) (fun empty => ?_)
  have size := congrArg List.length empty
  rw [List.length_take,hexdigest_length] at size
  contradiction

theorem second_plain (content : Bytes) : 47 ∉ (hexdigest content).drop 2 ∧ (hexdigest content).drop 2 ≠ [] ∧
    (hexdigest content).drop 2 ≠ lit "." ∧ (hexdigest content).drop 2 ≠ up := by
  refine piece_plain (List.drop_sublist 2 _) (fun empty => ?_)
  have size := congrArg List.length empty
  rw [List.length_drop,hexdigest_length] at size
  contradiction

theorem object_path_digest (content : Bytes) : object_path w (hexdigest content) =
    ⟨w.av_dir,[lit "objects",(hexdigest content).take 2,(hexdigest content).drop 2]⟩ := by
  obtain ⟨slash,filled,dot,-⟩ := first_plain content
  obtain ⟨slash',filled',dot',-⟩ := second_plain content
  rw [object_path,join_plain slash filled dot,join_plain slash' filled' dot']
  rfl

theorem object_path_down (content : Bytes) : up ∉ (object_path w (hexdigest content)).rest := by
  rw [object_path_digest]
  intro goes_up
  simp only [List.mem_cons,List.not_mem_nil,or_false] at goes_up
  rcases goes_up with fixed | first | second
  · contradiction
  · exact (first_plain content).2.2.2 first.symm
  · exact (second_plain content).2.2.2 second.symm

theorem reach_object {files : Files} {content : Bytes} {place : List Str}
    (reached : reach up files (object_path w (hexdigest content)).start (object_path w (hexdigest content)).rest = some place) :
    place = object_place w (hexdigest content) := by
  rw [reach_down (object_path_down w content) reached,object_path_digest]
  rfl

theorem object_place_inj {a b : Str} (same : object_place w a = object_place w b) : a = b := by
  have names := List.append_cancel_left same
  simp only [List.cons.injEq,and_true,true_and] at names
  rw [← List.take_append_drop 2 a,names.1,names.2,List.take_append_drop]

theorem place_inner (h : Str) : object_place w h ≠ [] := by
  simp [object_place]

theorem node_at_place (files : Files) (h : Str) : node_at files (object_place w h) = files.get? (object_place w h) :=
  if_neg (place_inner w h)

theorem available_iff (files : Files) (h : Str) : available w files h = true ↔ ∃ content, h = hexdigest content ∧
    reach up files (object_path w h).start (object_path w h).rest = some (object_place w h) ∧
    files.get? (object_place w h) = some (.file content) := by
  unfold available
  constructor
  · intro held
    cases entry : lookup up files (object_path w h).start (object_path w h).rest with
    | none => rw [entry] at held; contradiction
    | some node =>
      rw [entry] at held
      cases node with
      | directory => contradiction
      | file content =>
        obtain rfl := of_decide_eq_true held
        obtain ⟨place,reached,node⟩ := lookup_iff.mp entry
        obtain rfl := reach_object w reached
        exact ⟨content,rfl,reached,(node_at_place w files _).symm.trans node⟩
  · intro there
    obtain ⟨content,rfl,reached,file⟩ := there
    rw [lookup_iff.mpr ⟨_,reached,(node_at_place w files _).trans file⟩]
    exact decide_eq_true rfl

theorem available_present {files : Files} {h : Str} (held : available w files h = true) :
    present files (object_path w h) = true := by
  obtain ⟨content,-,reached,file⟩ := (available_iff w files h).mp held
  exact lookup_some.mpr ⟨_,_,reached,(node_at_place w files h).trans file⟩

theorem commit_path_digest (content : Bytes) :
    commit_path w (hexdigest content) = ⟨w.av_dir,[lit "commits",hexdigest content ++ lit ".json"]⟩ := by
  have slash : 47 ∉ hexdigest content ++ lit ".json" := by
    intro member
    rcases List.mem_append.mp member with first | second
    · exact (hexdigest_plain first).2 rfl
    · contradiction
  have long : (hexdigest content ++ lit ".json").length = 69 := by
    rw [List.length_append,hexdigest_length]
    rfl
  have filled : hexdigest content ++ lit ".json" ≠ [] := fun empty => by rw [empty] at long; contradiction
  have dot : hexdigest content ++ lit ".json" ≠ lit "." := fun single => by rw [single] at long; contradiction
  rw [commit_path,join_plain slash filled dot]
  rfl

def commit_place (content : Bytes) : List Str :=
  w.av_dir ++ [lit "commits",hexdigest content ++ lit ".json"]

theorem commit_name_up (content : Bytes) : hexdigest content ++ lit ".json" ≠ up := by
  intro same
  have size := congrArg List.length same
  rw [List.length_append,hexdigest_length] at size
  contradiction

/-! What the repairs keep of the files. -/

/-- Nothing goes away, and no content is lost. -/
structure Builds (before later : Files) : Prop where
  stands : Stands before later
  content : ∀ h, available w before h = true → available w later h = true

/-- Nor does the right content come where something else is. -/
structure Settles (before later : Files) : Prop extends Builds w before later where
  frozen : ∀ h, present before (object_path w h) = true → available w later h = true → available w before h = true

variable {w}

theorem Builds.refl (files : Files) : Builds w files files := ⟨Stands.refl files,fun _ held => held⟩

theorem Builds.trans {a b c : Files} (first : Builds w a b) (second : Builds w b c) : Builds w a c :=
  ⟨first.stands.trans second.stands,fun h held => second.content h (first.content h held)⟩

theorem Builds.present {before later : Files} (builds : Builds w before later) {route : Route}
    (there : present before route = true) : present later route = true := builds.stands.looks there

theorem Settles.refl (files : Files) : Settles w files files := ⟨Builds.refl files,fun _ _ held => held⟩

theorem Settles.trans {a b c : Files} (first : Settles w a b) (second : Settles w b c) : Settles w a c where
  toBuilds := first.toBuilds.trans second.toBuilds
  frozen h there held := first.frozen h there (second.frozen h (first.toBuilds.present there) held)

/-- An object that is present lies in its place. -/
theorem present_place {files : Files} {content : Bytes} (there : present files (object_path w (hexdigest content)) = true) :
    reach up files (object_path w (hexdigest content)).start (object_path w (hexdigest content)).rest =
      some (object_place w (hexdigest content)) ∧ ∃ node, files.get? (object_place w (hexdigest content)) = some node := by
  obtain ⟨place,node,reached,entry⟩ := lookup_some.mp there
  obtain rfl := reach_object w reached
  exact ⟨reached,node,(node_at_place w files _).symm.trans entry⟩

theorem grows_settles {before later : Files} (grows : Grows before later) : Settles w before later where
  stands := grows.stands
  content h held := by
    obtain ⟨content,digest,reached,file⟩ := (available_iff w before h).mp held
    exact (available_iff w later h).mpr ⟨content,digest,grows.stands.reaches reached,grows _ _ file⟩
  frozen h there held := by
    obtain ⟨content,rfl,-,file⟩ := (available_iff w later h).mp held
    obtain ⟨reached,node,found⟩ := present_place there
    rw [grows _ _ found] at file
    obtain rfl := Option.some.inj file
    exact (available_iff w before _).mpr ⟨content,rfl,reached,found⟩

theorem publish_builds {before later : Files} {path : List Str} {content : Bytes}
    (published : publish before path content = some later) (own : ∀ h, object_place w h = path → hexdigest content = h) :
    Builds w before later where
  stands := publish_stands published
  content h held := by
    obtain ⟨old,digest,reached,file⟩ := (available_iff w before h).mp held
    have kept := (publish_stands published).reaches reached
    by_cases same : object_place w h = path
    · exact (available_iff w later h).mpr ⟨content,(own h same).symm,kept,by rw [publish_get published,if_pos same]⟩
    · exact (available_iff w later h).mpr ⟨old,digest,kept,by rw [publish_get published,if_neg same,file]⟩

theorem publish_settles {start before later : Files} {path : List Str} {content : Bytes} (settles : Settles w start before)
    (published : publish before path content = some later) (own : ∀ h, object_place w h = path → hexdigest content = h)
    (free : ∀ h, object_place w h = path → present start (object_path w h) = false) : Settles w start later where
  toBuilds := settles.toBuilds.trans (publish_builds published own)
  frozen h there held := by
    have other : object_place w h ≠ path := fun same => Bool.noConfusion ((free h same).symm.trans there)
    obtain ⟨old,rfl,-,file⟩ := (available_iff w later h).mp held
    rw [publish_get published,if_neg other] at file
    have reached := (present_place (settles.toBuilds.present there)).1
    exact settles.frozen _ there ((available_iff w before _).mpr ⟨old,rfl,reached,file⟩)

/-- What a download can do: make directories, or put the content where it belongs. -/
theorem download_cases {server : Server} {files later : Files} {h : Str} {result : Option Bool}
    (downloaded : download_object w server files h = (later,result)) : Grows files later ∧ result ≠ some true ∨
      result = some true ∧ ∃ content made, h = hexdigest content ∧ Grows files made ∧
        publish made (object_place w h) content = some later ∧ available w later h = true := by
  unfold download_object at downloaded
  split at downloaded
  · obtain ⟨rfl,rfl⟩ := Prod.mk.inj downloaded
    exact Or.inl ⟨Grows.refl files,by decide⟩
  · obtain ⟨rfl,rfl⟩ := Prod.mk.inj downloaded
    exact Or.inl ⟨Grows.refl files,by decide⟩
  · rename_i bytes _
    have grows := mkdirs_grows up files (object_path w h).start (object_path w h).rest.dropLast
    split at downloaded
    · rename_i made leads
      rw [leads] at grows
      obtain ⟨rfl,rfl⟩ := Prod.mk.inj downloaded
      exact Or.inl ⟨grows,by decide⟩
    · rename_i made parent leads
      rw [leads] at grows
      split at downloaded
      · obtain ⟨rfl,rfl⟩ := Prod.mk.inj downloaded
        exact Or.inl ⟨grows,by decide⟩
      · rename_i name last
        split at downloaded
        · obtain ⟨rfl,rfl⟩ := Prod.mk.inj downloaded
          exact Or.inl ⟨grows,by decide⟩
        · rename_i digest
          obtain rfl := not_not.mp digest
          split at downloaded
          · obtain ⟨rfl,rfl⟩ := Prod.mk.inj downloaded
            exact Or.inl ⟨grows,by decide⟩
          · rename_i stored published
            obtain ⟨rfl,rfl⟩ := Prod.mk.inj downloaded
            have whole : (object_path w (hexdigest bytes)).rest.dropLast ++ [name] = (object_path w (hexdigest bytes)).rest :=
              List.dropLast_append_getLast? _ last
            have plain : name ≠ up := by
              intro goes_up
              exact object_path_down w bytes (goes_up ▸ List.mem_of_getLast? last)
            have file := publish_get published (parent ++ [name])
            rw [if_pos rfl] at file
            have reached := mkdirs_leads leads (publish_stands published).directory plain file
            rw [whole] at reached
            obtain rest := reach_object w reached
            rw [rest] at published reached file
            exact Or.inr ⟨rfl,bytes,made,rfl,grows,published,(available_iff w stored _).mpr ⟨bytes,rfl,reached,file⟩⟩

theorem download_builds (server : Server) (files : Files) (h : Str) : Builds w files (download_object w server files h).1 := by
  obtain ⟨grows,-⟩ | ⟨-,content,made,digest,grows,published,-⟩ := download_cases (Prod.eta (download_object w server files h)).symm
  · exact (grows_settles grows).toBuilds
  · refine (grows_settles grows).toBuilds.trans (publish_builds published fun other same => ?_)
    rw [object_place_inj w same,digest]

theorem download_settles (server : Server) {files : Files} {h : Str} (missing : present files (object_path w h) = false) :
    Settles w files (download_object w server files h).1 := by
  obtain ⟨grows,-⟩ | ⟨-,content,made,digest,grows,published,-⟩ := download_cases (Prod.eta (download_object w server files h)).symm
  · exact grows_settles grows
  · refine publish_settles (grows_settles grows) published (fun other same => ?_) (fun other same => ?_)
    · rw [object_place_inj w same,digest]
    · rw [object_place_inj w same,missing]

theorem download_available {server : Server} {files : Files} {h : Str}
    (downloaded : (download_object w server files h).2 = some true) :
    available w (download_object w server files h).1 h = true := by
  obtain ⟨-,failed⟩ | ⟨-,content,made,-,-,-,held⟩ := download_cases (Prod.eta (download_object w server files h)).symm
  · exact absurd downloaded failed
  · exact held

theorem download_all_builds (server : Server) (files : Files) (parts : List Str) :
    Builds w files (download_all w server files parts).1 := by
  induction parts generalizing files with
  | nil => exact Builds.refl files
  | cons h rest ih =>
    have builds := download_builds (w := w) server files h
    unfold download_all
    split
    · rename_i later downloaded
      rw [downloaded] at builds
      exact builds.trans (ih later)
    all_goals
      rename_i later downloaded
      rw [downloaded] at builds
      exact builds

theorem download_all_available {server : Server} {files : Files} {parts : List Str}
    (downloaded : (download_all w server files parts).2 = some true) {h : Str} (member : h ∈ parts) :
    available w (download_all w server files parts).1 h = true := by
  induction parts generalizing files with
  | nil => exact absurd member List.not_mem_nil
  | cons first rest ih =>
    have held (fetched : (download_object w server files first).2 = some true) := download_available fetched
    unfold download_all at downloaded ⊢
    split at downloaded
    · rename_i later one
      rw [one] at held
      rcases List.mem_cons.mp member with rfl | member
      · exact (download_all_builds server later rest).content _ (held rfl)
      · exact ih downloaded member
    all_goals cases downloaded

/-! What the removal of temporary files leaves. -/

theorem temporary_dots {name : Str} (found : temporary name = true) : 2 ≤ name.count 46 := by
  obtain ⟨tail,member,starts⟩ := List.any_eq_true.mp found
  have inside : (lit ".tmp.").Sublist name :=
    (List.isPrefixOf_iff_prefix.mp starts).sublist.trans ((List.mem_tails _ _).mp member).sublist
  exact inside.count_le 46

theorem mem_leftovers {files : Files} {path : List Str} : path ∈ leftovers w files ↔ (files.get? path).isSome = true ∧
    (w.av_dir.isPrefixOf path && w.av_dir ≠ path && path.getLast?.any temporary) = true := by
  rw [leftovers,List.mem_filter,Dict.mem_keys,Option.isSome_iff_exists]

theorem leftover_name {files : Files} {folder : List Str} {name : Str} (member : folder ++ [name] ∈ leftovers w files) :
    temporary name = true := by
  have shape := (mem_leftovers.mp member).2
  rw [List.getLast?_concat,Bool.and_eq_true] at shape
  exact shape.2

theorem leftover_inner {files : Files} {path : List Str} (member : path ∈ leftovers w files) : path ≠ [] := by
  rintro rfl
  have shape := (mem_leftovers.mp member).2
  rw [Bool.and_eq_true] at shape
  cases shape.2

theorem object_stays (files : Files) (content : Bytes) : object_place w (hexdigest content) ∉ leftovers w files := by
  intro member
  have ending : object_place w (hexdigest content) =
      (w.av_dir ++ [lit "objects",(hexdigest content).take 2]) ++ [(hexdigest content).drop 2] := by
    simp [object_place]
  rw [ending] at member
  have dots := temporary_dots (leftover_name member)
  rw [List.count_eq_zero_of_not_mem fun dot => (hexdigest_plain (List.mem_of_mem_drop dot)).1 rfl] at dots
  contradiction

theorem commit_stays (files : Files) (content : Bytes) : commit_place w content ∉ leftovers w files := by
  intro member
  have ending : commit_place w content = (w.av_dir ++ [lit "commits"]) ++ [hexdigest content ++ lit ".json"] := by
    simp [commit_place]
  rw [ending] at member
  have dots := temporary_dots (leftover_name member)
  rw [List.count_append,List.count_eq_zero_of_not_mem fun dot => (hexdigest_plain dot).1 rfl] at dots
  contradiction

variable (w) in
def swept (files : Files) : Files := (unlink_all files (leftovers w files)).1

theorem swept_within (files : Files) : Grows (swept w files) files := unlink_all_within files (leftovers w files)

theorem swept_other {files : Files} {path : List Str} (stays : path ∉ leftovers w files) :
    (swept w files).get? path = files.get? path := unlink_all_other files stays

theorem swept_reach {files : Files} {start path place : List Str} (reached : reach up files start path = some place)
    (stays : place ∉ leftovers w files) : reach up (swept w files) start path = some place := by
  refine reach_kept (fun other folder => unlink_all_directory files _ folder) reached fun there => ?_
  exact (swept_other stays).symm ▸ there

theorem swept_present {files : Files} {route : Route} (there : present files route = true)
    (stays : ∀ place, reach up files route.start route.rest = some place → place ∉ leftovers w files) :
    present (swept w files) route = true := by
  obtain ⟨place,node,reached,entry⟩ := lookup_some.mp there
  refine lookup_some.mpr ⟨place,node,swept_reach reached (stays place reached),?_⟩
  rw [node_at,swept_other (stays place reached)]
  exact entry

/-- A path to a file that has been removed leads nowhere. -/
theorem swept_gone {files : Files} {route : Route} {place : List Str}
    (reached : reach up files route.start route.rest = some place) (removed : place ∈ leftovers w files)
    (gone : (swept w files).get? place = none) : present (swept w files) route = false := by
  refine Bool.not_eq_true _ ▸ fun there => ?_
  obtain ⟨other,node,again,entry⟩ := lookup_some.mp there
  obtain rfl := Option.some.inj ((reach_part (swept_within files) again).symm.trans reached)
  rw [node_at,if_neg (leftover_inner removed),gone] at entry
  cases entry

theorem swept_available_iff (files : Files) (h : Str) : available w (swept w files) h = true ↔ available w files h = true := by
  rw [available_iff,available_iff]
  constructor
  · intro held
    obtain ⟨content,digest,reached,file⟩ := held
    exact ⟨content,digest,reach_part (swept_within files) reached,swept_within files _ _ file⟩
  · intro held
    obtain ⟨content,rfl,reached,file⟩ := held
    refine ⟨content,rfl,swept_reach reached (object_stays files content),?_⟩
    rw [swept_other (object_stays files content),file]

/-- Where the leftovers are files, all of them go. -/
theorem leftover_gone {files : Files} (plain : ∀ path ∈ leftovers w files, files.get? path ≠ some .directory) {path : List Str}
    (member : path ∈ leftovers w files) : (swept w files).get? path = none := unlink_all_gone files plain member

end Places

end AetherVault.Doctor
