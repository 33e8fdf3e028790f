import Mathlib.Order.Lattice
import Mathlib.Data.List.Basic
import Mathlib.Data.List.Pairwise

/-! Finite maps as key-sorted association lists over a linear order. Sorted
lists are canonical, so equal lookups mean equal lists. -/

namespace Ztd.Lib.OrderedMap
universe u v w
variable {Key : Type u} {Value : Type v} {Other : Type w} [LinearOrder Key]

/-- Keys ascend strictly, hence each key occurs once. -/
def Sorted (entries : List (Key × Value)) : Prop :=
  entries.Pairwise (fun first second => first.1 < second.1)

def find? (key : Key) : List (Key × Value) → Option Value
  | [] => none
  | (head, value) :: rest => if head = key then some value else find? key rest

/-- Put a value under a key, replacing the one already there. -/
def insert (key : Key) (value : Value) : List (Key × Value) → List (Key × Value)
  | [] => [(key, value)]
  | (head, old) :: rest =>
    if key < head then (key, value) :: (head, old) :: rest
    else if head = key then (key, value) :: rest
    else (head, old) :: insert key value rest

/-- Lay one map over another: its values win. -/
def override (under upper : List (Key × Value)) : List (Key × Value) :=
  upper.foldl (fun built entry => insert entry.1 entry.2 built) under

def ofList (entries : List (Key × Value)) : List (Key × Value) := override [] entries

@[simp] theorem find?_nil (key : Key) : find? key ([] : List (Key × Value)) = none := rfl

theorem find?_cons (key head : Key) (value : Value) (rest : List (Key × Value)) :
    find? key ((head, value) :: rest) = if head = key then some value else find? key rest := rfl

@[simp] theorem find?_cons_self (key : Key) (value : Value) (rest : List (Key × Value)) :
    find? key ((key, value) :: rest) = some value := by
  simp [find?_cons]

theorem mem_of_find? {key : Key} {value : Value} {entries : List (Key × Value)}
    (found : find? key entries = some value) : (key, value) ∈ entries := by
  induction entries with
  | nil => simp at found
  | cons entry rest ih =>
    obtain ⟨head, old⟩ := entry
    by_cases same : head = key
    · subst head
      simp at found
      simp [found]
    · simp only [find?_cons, same, ↓reduceIte] at found
      exact List.mem_cons_of_mem _ (ih found)

theorem find?_eq_none_iff {key : Key} {entries : List (Key × Value)} :
    find? key entries = none ↔ key ∉ entries.map Prod.fst := by
  induction entries with
  | nil => simp
  | cons entry rest ih =>
    obtain ⟨head, old⟩ := entry
    by_cases same : head = key
    · subst head
      simp
    · simpa [find?_cons, same, Ne.symm same] using ih

@[simp] theorem find?_insert_self (key : Key) (value : Value) (entries : List (Key × Value)) :
    find? key (insert key value entries) = some value := by
  induction entries with
  | nil => simp [insert]
  | cons entry rest ih =>
    obtain ⟨head, old⟩ := entry
    unfold insert
    split
    · simp
    · split
      · simp
      · rename_i different
        simp [find?_cons, different, ih]

theorem find?_insert_ne {key other : Key} (different : other ≠ key) (value : Value)
    (entries : List (Key × Value)) :
    find? other (insert key value entries) = find? other entries := by
  induction entries with
  | nil => simp [insert, find?_cons, Ne.symm different]
  | cons entry rest ih =>
    obtain ⟨head, old⟩ := entry
    unfold insert
    split
    · simp [find?_cons, Ne.symm different]
    · split
      · rename_i same
        subst head
        simp [find?_cons, Ne.symm different]
      · simp [find?_cons, ih]

theorem find?_insert (key other : Key) (value : Value) (entries : List (Key × Value)) :
    find? other (insert key value entries) =
      if other = key then some value else find? other entries := by
  by_cases same : other = key
  · subst other
    simp
  · simp [same, find?_insert_ne same]

/-- A new key makes the map one entry longer. -/
theorem length_insert {key : Key} (value : Value) {entries : List (Key × Value)}
    (absent : find? key entries = none) :
    (insert key value entries).length = entries.length + 1 := by
  induction entries with
  | nil => rfl
  | cons entry rest ih =>
    obtain ⟨head, old⟩ := entry
    rw [find?_cons] at absent
    split at absent
    · cases absent
    · rename_i different
      unfold insert
      split
      · rfl
      · rw [List.length_cons, ih absent, List.length_cons]

/-- A new key is one more entry. -/
theorem insert_perm {key : Key} (value : Value) {entries : List (Key × Value)}
    (absent : find? key entries = none) : (insert key value entries).Perm ((key, value) :: entries) := by
  induction entries with
  | nil => exact .refl _
  | cons entry rest ih =>
    obtain ⟨head, old⟩ := entry
    rw [find?_cons] at absent
    split at absent
    · cases absent
    · rename_i different
      rw [insert, if_neg different]
      split
      · exact .refl _
      · exact ((ih absent).cons _).trans (.swap ..)

theorem mem_insert {key : Key} {value : Value} {entry : Key × Value}
    {entries : List (Key × Value)} (member : entry ∈ insert key value entries) :
    entry = (key, value) ∨ entry ∈ entries := by
  induction entries with
  | nil => simpa [insert] using member
  | cons first rest ih =>
    obtain ⟨head, old⟩ := first
    unfold insert at member
    split at member
    · simpa using member
    · split at member
      · rcases List.mem_cons.mp member with same | later
        · exact .inl same
        · exact .inr (List.mem_cons_of_mem _ later)
      · rcases List.mem_cons.mp member with same | later
        · exact .inr (by simp [same])
        · rcases ih later with same | old
          · exact .inl same
          · exact .inr (List.mem_cons_of_mem _ old)

theorem Sorted.nil : Sorted ([] : List (Key × Value)) := List.Pairwise.nil

theorem Sorted.tail {entry : Key × Value} {rest : List (Key × Value)}
    (sorted : Sorted (entry :: rest)) : Sorted rest := (List.pairwise_cons.mp sorted).2

theorem Sorted.head_lt {entry : Key × Value} {rest : List (Key × Value)}
    (sorted : Sorted (entry :: rest)) : ∀ later ∈ rest, entry.1 < later.1 :=
  (List.pairwise_cons.mp sorted).1

theorem Sorted.nodup {entries : List (Key × Value)} (sorted : Sorted entries) :
    (entries.map Prod.fst).Nodup :=
  List.pairwise_map.mpr (sorted.imp fun less => ne_of_lt less)

theorem Sorted.insert {entries : List (Key × Value)} (sorted : Sorted entries)
    (key : Key) (value : Value) : Sorted (insert key value entries) := by
  induction entries with
  | nil => simp [OrderedMap.insert, Sorted]
  | cons entry rest ih =>
    obtain ⟨head, old⟩ := entry
    have above := sorted.head_lt
    unfold OrderedMap.insert
    split
    · rename_i before
      refine List.pairwise_cons.mpr ⟨?_, sorted⟩
      intro later member
      rcases List.mem_cons.mp member with same | later
      · simpa [same] using before
      · exact before.trans (above _ later)
    · split
      · rename_i same
        subst head
        exact List.pairwise_cons.mpr ⟨above, sorted.tail⟩
      · rename_i notBefore different
        refine List.pairwise_cons.mpr ⟨?_, ih sorted.tail⟩
        intro later member
        rcases mem_insert member with same | old
        · subst later
          exact lt_of_le_of_ne (not_lt.mp notBefore) different
        · exact above _ old

theorem Sorted.find?_head_lt {key head : Key} {value : Value} {rest : List (Key × Value)}
    (sorted : Sorted ((head, value) :: rest)) (below : key ≤ head) : find? key rest = none := by
  apply find?_eq_none_iff.mpr
  intro member
  obtain ⟨later, present, same⟩ := List.mem_map.mp member
  have above := sorted.head_lt later present
  rw [same] at above
  exact absurd above (not_lt.mpr below)

theorem Sorted.find?_of_mem {key : Key} {value : Value} {entries : List (Key × Value)}
    (sorted : Sorted entries) (member : (key, value) ∈ entries) :
    find? key entries = some value := by
  induction entries with
  | nil => simp at member
  | cons entry rest ih =>
    obtain ⟨head, old⟩ := entry
    rcases List.mem_cons.mp member with same | later
    · cases same
      simp
    · have above := sorted.head_lt _ later
      simp [find?_cons, above.ne, ih sorted.tail later]

/-- Sorted lists with the same lookups are the same list. -/
theorem Sorted.ext {left right : List (Key × Value)} (leftSorted : Sorted left)
    (rightSorted : Sorted right) (same : ∀ key, find? key left = find? key right) :
    left = right := by
  induction left generalizing right with
  | nil =>
    cases right with
    | nil => rfl
    | cons entry rest =>
      obtain ⟨head, value⟩ := entry
      simpa using same head
  | cons entry rest ih =>
    obtain ⟨head, value⟩ := entry
    cases right with
    | nil => simpa using same head
    | cons other others =>
      obtain ⟨otherHead, otherValue⟩ := other
      have heads : head = otherHead := by
        rcases lt_trichotomy head otherHead with before | equal | after
        · have missing := same head
          simp [find?_cons, before.ne', rightSorted.find?_head_lt before.le] at missing
        · exact equal
        · have missing := same otherHead
          simp [find?_cons, after.ne', leftSorted.find?_head_lt after.le] at missing
      subst otherHead
      have values : value = otherValue := by simpa using same head
      subst otherValue
      congr 1
      apply ih leftSorted.tail rightSorted.tail
      intro key
      by_cases this : head = key
      · subst key
        rw [leftSorted.find?_head_lt le_rfl, rightSorted.find?_head_lt le_rfl]
      · simpa [find?_cons, this] using same key

/-- Inserting the value already there changes nothing. -/
theorem Sorted.insert_found {key : Key} {value : Value} {entries : List (Key × Value)}
    (sorted : Sorted entries) (found : find? key entries = some value) :
    OrderedMap.insert key value entries = entries := by
  apply (sorted.insert key value).ext sorted
  intro other
  rw [find?_insert]
  split
  · rename_i same
    rw [same, found]
  · rfl

theorem Sorted.filter {entries : List (Key × Value)} (sorted : Sorted entries)
    (p : Key × Value → Bool) : Sorted (entries.filter p) := List.Pairwise.filter p sorted

section Others
variable [BEq Key] [LawfulBEq Key]

/-- A present key is one entry, apart from the others. -/
theorem Sorted.find_perm {key : Key} {value : Value} {entries : List (Key × Value)}
    (sorted : Sorted entries) (found : find? key entries = some value) :
    entries.Perm ((key, value) :: entries.filter fun entry => entry.1 != key) := by
  induction entries with
  | nil => cases found
  | cons entry rest ih =>
    obtain ⟨head, old⟩ := entry
    rw [find?_cons] at found
    split at found
    · rename_i same
      obtain rfl := Option.some.inj found
      subst same
      have others : rest.filter (fun entry => entry.1 != head) = rest :=
        List.filter_eq_self.mpr fun entry member => bne_iff_ne.mpr (sorted.head_lt entry member).ne'
      simp [others]
    · rename_i different
      rw [List.filter_cons, if_pos (bne_iff_ne.mpr different)]
      exact ((ih sorted.tail found).cons _).trans (.swap ..)

theorem filter_insert (key : Key) (value : Value) (entries : List (Key × Value)) :
    (insert key value entries).filter (fun entry => entry.1 != key) =
      entries.filter fun entry => entry.1 != key := by
  induction entries with
  | nil => simp [insert]
  | cons entry rest ih =>
    obtain ⟨head, old⟩ := entry
    rw [insert]
    split
    · simp
    · split
      · rename_i same
        simp [same]
      · simp [List.filter_cons, ih]

end Others

/-- Inserting above every present key appends. -/
theorem insert_last {key : Key} {value : Value} {entries : List (Key × Value)}
    (below : ∀ entry ∈ entries, entry.1 < key) :
    insert key value entries = entries ++ [(key, value)] := by
  induction entries with
  | nil => rfl
  | cons entry rest ih =>
    obtain ⟨head, old⟩ := entry
    have headBelow : head < key := below _ (List.mem_cons_self ..)
    rw [insert, if_neg headBelow.not_gt, if_neg headBelow.ne,
      ih (fun later member => below later (List.mem_cons_of_mem _ member))]
    rfl

/-- Laying keys above all present ones appends them. -/
theorem override_append (entries built : List (Key × Value))
    (sorted : Sorted (built ++ entries)) : override built entries = built ++ entries := by
  unfold override
  induction entries generalizing built with
  | nil => simp
  | cons entry rest ih =>
    have below : ∀ earlier ∈ built, earlier.1 < entry.1 := fun earlier member =>
      (List.pairwise_append.mp sorted).2.2 earlier member entry (List.mem_cons_self ..)
    rw [List.foldl_cons, insert_last below, ih _ (by simpa using sorted)]
    simp

theorem ofList_sorted {entries : List (Key × Value)} (sorted : Sorted entries) :
    ofList entries = entries := by
  simpa [ofList] using override_append entries [] (by simpa using sorted)

theorem Sorted.mapWithKey {entries : List (Key × Value)} (sorted : Sorted entries)
    (f : Key → Value → Other) :
    Sorted (entries.map (fun entry => (entry.1, f entry.1 entry.2))) := by
  simpa [Sorted, List.pairwise_map] using sorted

theorem Sorted.map {entries : List (Key × Value)} (sorted : Sorted entries)
    (f : Value → Other) : Sorted (entries.map (fun entry => (entry.1, f entry.2))) :=
  sorted.mapWithKey (fun _ => f)

theorem find?_mapWithKey (f : Key → Value → Other) (key : Key) (entries : List (Key × Value)) :
    find? key (entries.map (fun entry => (entry.1, f entry.1 entry.2))) =
      (find? key entries).map (f key) := by
  induction entries with
  | nil => rfl
  | cons entry rest ih =>
    obtain ⟨head, value⟩ := entry
    by_cases same : head = key
    · subst head
      simp
    · simp [find?_cons, same, ih]

/-- Changing the value of a present key where it is inserts the changed one. -/
theorem Sorted.map_found [DecidableEq Key] {key : Key} {value : Value}
    {entries : List (Key × Value)} (sorted : Sorted entries) (found : find? key entries = some value) (f : Value → Value) :
    (entries.map fun entry => if entry.1 = key then (entry.1, f entry.2) else entry) =
      OrderedMap.insert key (f value) entries := by
  have same : (entries.map fun entry => if entry.1 = key then (entry.1, f entry.2) else entry) =
      entries.map fun entry => (entry.1, if entry.1 = key then f entry.2 else entry.2) :=
    List.map_congr_left fun entry _ => by split <;> rfl
  let changed (name : Key) (value : Value) : Value := if name = key then f value else value
  rw [same]
  apply (sorted.mapWithKey changed).ext (sorted.insert key (f value))
  intro other
  rw [find?_mapWithKey changed, find?_insert]
  split
  · rename_i is
    rw [is, found, Option.map_some]
    exact congrArg some (if_pos rfl)
  · rename_i different
    simp only [changed, if_neg different, Option.map_id']

theorem find?_map (f : Value → Other) (key : Key) (entries : List (Key × Value)) :
    find? key (entries.map (fun entry => (entry.1, f entry.2))) = (find? key entries).map f :=
  find?_mapWithKey (fun _ => f) key entries

theorem insert_map (f : Value → Other) (key : Key) (value : Value)
    (entries : List (Key × Value)) :
    (insert key value entries).map (fun entry => (entry.1, f entry.2)) =
      insert key (f value) (entries.map (fun entry => (entry.1, f entry.2))) := by
  induction entries with
  | nil => rfl
  | cons entry rest ih =>
    obtain ⟨head, old⟩ := entry
    simp only [insert, List.map_cons]
    split
    · rfl
    · split
      · rfl
      · simp [ih]

theorem Sorted.override {under : List (Key × Value)} (sorted : Sorted under)
    (upper : List (Key × Value)) : Sorted (override under upper) := by
  unfold OrderedMap.override
  induction upper generalizing under with
  | nil => exact sorted
  | cons entry rest ih => exact ih (sorted.insert entry.1 entry.2)

theorem Sorted.find?_override {upper : List (Key × Value)} (sorted : Sorted upper)
    (under : List (Key × Value)) (key : Key) :
    find? key (OrderedMap.override under upper) = (find? key upper).or (find? key under) := by
  unfold OrderedMap.override
  induction upper generalizing under with
  | nil => simp
  | cons entry rest ih =>
    obtain ⟨head, value⟩ := entry
    rw [List.foldl_cons, ih sorted.tail]
    by_cases same : head = key
    · subst head
      simp [sorted.find?_head_lt le_rfl]
    · simp [find?_cons, same, find?_insert_ne (Ne.symm same)]

section Related
variable {related : Value → Other → Prop}

/-- Two maps with the same keys and related values. -/
def Related (related : Value → Other → Prop) : List (Key × Value) → List (Key × Other) → Prop :=
  List.Forall₂ fun entry other => entry.1 = other.1 ∧ related entry.2 other.2

theorem Related.find? {entries : List (Key × Value)} {others : List (Key × Other)}
    (alike : Related related entries others) (key : Key) :
    Option.Rel related (OrderedMap.find? key entries) (OrderedMap.find? key others) := by
  induction alike with
  | nil => exact .none
  | @cons entry other rest later first _ ih =>
    obtain ⟨head, value⟩ := entry
    obtain ⟨_, result⟩ := other
    obtain ⟨rfl, here⟩ := first
    rw [find?_cons, find?_cons]
    split
    · exact .some here
    · exact ih

theorem Related.insert {entries : List (Key × Value)} {others : List (Key × Other)}
    (alike : Related related entries others) (key : Key) {value : Value} {other : Other}
    (same : related value other) :
    Related related (OrderedMap.insert key value entries) (OrderedMap.insert key other others) := by
  induction alike with
  | nil => exact .cons ⟨rfl, same⟩ .nil
  | @cons entry result rest later first behind ih =>
    obtain ⟨head, value⟩ := entry
    obtain ⟨_, result⟩ := result
    obtain ⟨rfl, here⟩ := first
    rw [OrderedMap.insert, OrderedMap.insert]
    split
    · exact .cons ⟨rfl, same⟩ (.cons ⟨rfl, here⟩ behind)
    · split
      · exact .cons ⟨rfl, same⟩ behind
      · exact .cons ⟨rfl, here⟩ ih

end Related

end Ztd.Lib.OrderedMap
