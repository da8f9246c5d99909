import Mathlib.Data.List.Nodup
import Mathlib.Data.List.Perm.Basic

/-! Insertion-ordered dictionaries. Writing a present key keeps its place, a new
key goes to the end, and no key occurs twice, which the structure itself carries. -/
namespace AetherVault.Lib

structure Dict (κ α : Type) where
  entries : List (κ × α)
  distinct : (entries.map Prod.fst).Nodup

namespace Dict

variable {κ α β : Type} [DecidableEq κ]

instance [DecidableEq α] : DecidableEq (Dict κ α) := fun a b =>
  decidable_of_iff (a.entries = b.entries) ⟨fun same => by cases a; cases b; congr,fun same => by rw [same]⟩

def empty : Dict κ α := ⟨[],by simp⟩

instance : EmptyCollection (Dict κ α) := ⟨empty⟩

instance : Inhabited (Dict κ α) := ⟨empty⟩

def keys (d : Dict κ α) : List κ := d.entries.map Prod.fst

def find : List (κ × α) → κ → Option α
  | [],_ => none
  | (k,v)::rest,key => if k = key then some v else find rest key

def get? (d : Dict κ α) (key : κ) : Option α := find d.entries key

def contains (d : Dict κ α) (key : κ) : Bool := (d.get? key).isSome

def assign : List (κ × α) → κ → α → List (κ × α)
  | [],key,value => [(key,value)]
  | (k,v)::rest,key,value => if k = key then (k,value)::rest else (k,v)::assign rest key value

theorem find_none_of_absent (xs : List (κ × α)) (key : κ) (absent : key ∉ xs.map Prod.fst) :
    find xs key = none := by
  induction xs with
  | nil => rfl
  | cons x rest ih =>
    simp only [List.map_cons,List.mem_cons,not_or] at absent
    simp [find,Ne.symm absent.1,ih absent.2]

theorem find_assign (xs : List (κ × α)) (key other : κ) (value : α) :
    find (assign xs key value) other = if other = key then some value else find xs other := by
  induction xs with
  | nil => simp [assign,find,eq_comm]
  | cons x rest ih =>
    by_cases same : x.1 = key
    · by_cases hit : other = key
      · simp [assign,find,same,hit]
      · simp [assign,find,same,hit,Ne.symm hit]
    · by_cases hit : x.1 = other
      · have differ : other ≠ key := hit ▸ same
        simp [assign,find,hit,differ]
      · simp [assign,find,same,hit,ih]

theorem assign_keys (xs : List (κ × α)) (key : κ) (value : α) :
    (assign xs key value).map Prod.fst =
      if key ∈ xs.map Prod.fst then xs.map Prod.fst else xs.map Prod.fst ++ [key] := by
  induction xs with
  | nil => simp [assign]
  | cons x rest ih =>
    by_cases same : x.1 = key
    · simp [assign,same]
    · have away : key ≠ x.1 := Ne.symm same
      simp only [assign,same,if_false,List.map_cons,ih,List.mem_cons,away,false_or]
      split <;> simp

theorem assign_distinct (xs : List (κ × α)) (key : κ) (value : α) (distinct : (xs.map Prod.fst).Nodup) :
    ((assign xs key value).map Prod.fst).Nodup := by
  rw [assign_keys]
  split
  · exact distinct
  · rename_i absent
    exact List.nodup_append.mpr ⟨distinct,by simp,by
      intro a member b single same
      exact absent (by simpa [← List.mem_singleton.mp single,same] using member)⟩

def set (d : Dict κ α) (key : κ) (value : α) : Dict κ α :=
  ⟨assign d.entries key value,assign_distinct _ _ _ d.distinct⟩

def filter (d : Dict κ α) (keep : κ → α → Bool) : Dict κ α :=
  ⟨d.entries.filter (fun e => keep e.1 e.2),
    List.Nodup.sublist (List.Sublist.map _ List.filter_sublist) d.distinct⟩

def erase (d : Dict κ α) (key : κ) : Dict κ α := d.filter (fun k _ => decide (k ≠ key))

def map (d : Dict κ α) (f : κ → α → β) : Dict κ β :=
  ⟨d.entries.map (fun e => (e.1,f e.1 e.2)),by
    have same : (d.entries.map (fun e => (e.1,f e.1 e.2))).map Prod.fst = d.entries.map Prod.fst := by
      simp [List.map_map,Function.comp_def]
    rw [same]
    exact d.distinct⟩

def modify (d : Dict κ α) (key : κ) (f : α → α) : Dict κ α := d.map (fun k value => if k = key then f value else value)

def ofList (items : List (κ × α)) : Dict κ α := items.foldl (fun d item => d.set item.1 item.2) empty

theorem find_of_mem (xs : List (κ × α)) (distinct : (xs.map Prod.fst).Nodup) (key : κ) (value : α) :
    (key,value) ∈ xs ↔ find xs key = some value := by
  induction xs with
  | nil => simp [find]
  | cons x rest ih =>
    obtain ⟨k,v⟩ := x
    have parts := List.nodup_cons.mp distinct
    by_cases same : k = key
    · subst k
      have absent : ∀ w, (key,w) ∉ rest := fun w member => parts.1 (List.mem_map.mpr ⟨(key,w),member,rfl⟩)
      simp [find,absent value,eq_comm]
    · simp [find,same,Ne.symm same,ih parts.2]

theorem mem_entries (d : Dict κ α) (key : κ) (value : α) :
    (key,value) ∈ d.entries ↔ d.get? key = some value :=
  find_of_mem d.entries d.distinct key value

theorem get?_of_perm {a b : Dict κ α} (same : a.entries.Perm b.entries) (key : κ) : a.get? key = b.get? key := by
  ext value
  rw [← mem_entries,← mem_entries,same.mem_iff]

@[simp] theorem get?_empty (key : κ) : (empty : Dict κ α).get? key = none := rfl

@[simp] theorem get?_emptyc (key : κ) : (∅ : Dict κ α).get? key = none := rfl

omit [DecidableEq κ] in
@[simp] theorem entries_empty : (empty : Dict κ α).entries = [] := rfl

theorem get?_set (d : Dict κ α) (key other : κ) (value : α) :
    (d.set key value).get? other = if other = key then some value else d.get? other :=
  find_assign d.entries key other value

@[simp] theorem get?_set_same (d : Dict κ α) (key : κ) (value : α) :
    (d.set key value).get? key = some value := by simp [get?_set]

theorem get?_set_other (d : Dict κ α) (key other : κ) (value : α) (differ : other ≠ key) :
    (d.set key value).get? other = d.get? other := by simp [get?_set,differ]

theorem get?_filter (d : Dict κ α) (keep : κ → α → Bool) (key : κ) :
    (d.filter keep).get? key = (d.get? key).filter (keep key) := by
  apply Option.ext
  intro value
  rw [← mem_entries,Option.filter_eq_some_iff,← mem_entries]
  simp [filter]

theorem get?_erase (d : Dict κ α) (key other : κ) :
    (d.erase key).get? other = if other = key then none else d.get? other := by
  rw [erase,get?_filter]
  by_cases same : other = key
  · cases found : d.get? other <;> simp [same]
  · cases found : d.get? other <;> simp [same]

@[simp] theorem get?_map (d : Dict κ α) (f : κ → α → β) (key : κ) :
    (d.map f).get? key = (d.get? key).map (f key) := by
  apply Option.ext
  intro value
  rw [← mem_entries,Option.map_eq_some_iff]
  simp only [map,List.mem_map,Prod.mk.injEq,← mem_entries]
  constructor
  · rintro ⟨⟨k,v⟩,member,rfl,rfl⟩
    exact ⟨v,member,rfl⟩
  · rintro ⟨v,member,rfl⟩
    exact ⟨(key,v),member,rfl,rfl⟩

theorem get?_modify (d : Dict κ α) (key other : κ) (f : α → α) :
    (d.modify key f).get? other = if other = key then (d.get? key).map f else d.get? other := by
  by_cases same : other = key <;> simp [modify,same]

theorem mem_keys (d : Dict κ α) (key : κ) : key ∈ d.keys ↔ ∃ value, d.get? key = some value := by
  simp only [keys,List.mem_map,Prod.exists,exists_and_right,exists_eq_right,mem_entries]

theorem contains_iff (d : Dict κ α) (key : κ) : d.contains key = true ↔ ∃ value, d.get? key = some value := by
  simp [contains,Option.isSome_iff_exists]

theorem contains_false (d : Dict κ α) (key : κ) : d.contains key = false ↔ d.get? key = none := by
  simp [contains]

theorem contains_set (d : Dict κ α) (key : κ) (value : α) {other : κ} (found : d.contains other = true) :
    (d.set key value).contains other = true := by
  obtain ⟨held,found⟩ := (d.contains_iff other).mp found
  refine ((d.set key value).contains_iff other).mpr ?_
  rw [get?_set]
  split
  · exact ⟨value,rfl⟩
  · exact ⟨held,found⟩

theorem get?_foldl_set (items : List (κ × α)) (d : Dict κ α) (key : κ) :
    (∀ value, (items.foldl (fun d item => d.set item.1 item.2) d).get? key = some value →
      (key,value) ∈ items ∨ d.get? key = some value) ∧
      ((∃ value, (key,value) ∈ items) ∨ d.contains key = true →
        (items.foldl (fun d item => d.set item.1 item.2) d).contains key = true) := by
  induction items generalizing d with
  | nil => exact ⟨fun value found => Or.inr found,by simp⟩
  | cons item rest ih =>
    obtain ⟨sound,complete⟩ := ih (d.set item.1 item.2)
    refine ⟨fun value found => ?_,fun held => complete ?_⟩
    · rcases sound value found with later | now
      · exact Or.inl (List.mem_cons_of_mem _ later)
      · rw [get?_set] at now
        split at now
        · rename_i same
          exact Or.inl (by simp [same,← Option.some.inj now])
        · exact Or.inr now
    · rcases held with ⟨value,member⟩ | held
      · rcases List.mem_cons.mp member with same | later
        · exact Or.inr (by simp [contains,← same])
        · exact Or.inl ⟨value,later⟩
      · exact Or.inr (contains_set d _ _ held)

theorem get?_ofList {items : List (κ × α)} {key : κ} {value : α} (found : (ofList items).get? key = some value) :
    (key,value) ∈ items := by
  simpa using (get?_foldl_set items empty key).1 value found

theorem contains_ofList {items : List (κ × α)} {key : κ} {value : α} (member : (key,value) ∈ items) :
    (ofList items).contains key = true := (get?_foldl_set items empty key).2 (Or.inl ⟨value,member⟩)

theorem find_append (xs ys : List (κ × α)) (key : κ) : find (xs ++ ys) key = (find xs key).or (find ys key) := by
  induction xs with
  | nil => rfl
  | cons x rest ih =>
    by_cases same : x.1 = key
    · simp [find,same]
    · simp [find,same,ih]

/-- The first dictionary's entries, and the second's where the first has none. -/
def union (d e : Dict κ α) : Dict κ α :=
  ⟨d.entries ++ (e.filter fun key _ => !d.contains key).entries,by
    rw [List.map_append,List.nodup_append]
    refine ⟨d.distinct,(e.filter _).distinct,fun a first b later same => ?_⟩
    obtain ⟨item,member,rfl⟩ := List.mem_map.mp later
    have absent : d.contains item.1 = false := by simpa using (List.mem_filter.mp member).2
    obtain ⟨value,found⟩ := (mem_keys d a).mp first
    rw [same] at found
    simp [contains,found] at absent⟩

theorem get?_union (d e : Dict κ α) (key : κ) : (d.union e).get? key = (d.get? key).or (e.get? key) := by
  have joined : (d.union e).get? key = (d.get? key).or ((e.filter fun key _ => !d.contains key).get? key) := find_append _ _ key
  rw [joined,get?_filter]
  cases found : d.get? key with
  | some value => rfl
  | none =>
    have absent : d.contains key = false := (contains_false d key).mpr found
    cases other : e.get? key with
    | some value => simp [absent]
    | none => rfl

theorem assign_absent {xs : List (κ × α)} {key : κ} (absent : key ∉ xs.map Prod.fst) (value : α) :
    assign xs key value = xs ++ [(key,value)] := by
  induction xs with
  | nil => rfl
  | cons x rest ih =>
    obtain ⟨here,later⟩ := not_or.mp (List.mem_cons.not.mp absent)
    rw [assign,if_neg (Ne.symm here),ih later,List.cons_append]

theorem entries_foldl_set {items : List (κ × α)} {d : Dict κ α} (distinct : ((d.entries ++ items).map Prod.fst).Nodup) :
    (items.foldl (fun d item => d.set item.1 item.2) d).entries = d.entries ++ items := by
  induction items generalizing d with
  | nil => exact (List.append_nil _).symm
  | cons item rest ih =>
    rw [List.map_append,List.nodup_append,List.map_cons] at distinct
    have absent : item.1 ∉ d.entries.map Prod.fst := fun among =>
      distinct.2.2 _ among _ List.mem_cons_self rfl
    have grown : (d.set item.1 item.2).entries = d.entries ++ [item] := assign_absent absent item.2
    rw [List.foldl_cons,ih,grown,List.append_assoc,List.singleton_append]
    rw [grown,List.append_assoc,List.singleton_append,List.map_append,List.nodup_append]
    exact distinct

theorem entries_ofList {items : List (κ × α)} (distinct : (items.map Prod.fst).Nodup) : (ofList items).entries = items :=
  entries_foldl_set distinct

omit [DecidableEq κ] in
@[ext] theorem ext {a b : Dict κ α} (same : a.entries = b.entries) : a = b := by
  cases a
  cases b
  congr

theorem ofList_entries (d : Dict κ α) : ofList d.entries = d := ext (entries_ofList d.distinct)

end Dict

end AetherVault.Lib
