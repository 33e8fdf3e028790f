import Ztd.Filedat.Combining
import Ztd.Filedat.Stored

/-! References into a chunk in memory. What a chunk owns is what a sub-chunk owns
and the rest, which does not change when something else takes the place of the
sub-chunk; two sub-chunks own separate parts unless one is a part of the other. -/

namespace Ztd.Filedat
open Ztd.Lib Ztd.Lib.Assertion

namespace Chunk
variable {ι κ : Type}

/-- What `subChunkRef` throws where there is no such sub-chunk. -/
def refusal (this : Chunk ι) : Access → FormatError
  | .key name =>
    match this with
    | .map _ _ => formatError (message "Map doesn't have '" ++ name ++ message "' flag") []
        this.str (-1)
    | _ => formatError (message "chunkdat isn't a map") [] this.str (-1)
  | .index position =>
    match this with
    | .list _ _ => formatError (message "List size is below " ++ (toString position).toList) []
        this.str (-1)
    | _ => formatError (message "chunkdat isn't a list") [] this.str (-1)

/-- `this[first][second]...`, with the exception of the first step that fails. -/
def refer : List Access → Chunk ι → Except FormatError (Chunk ι)
  | [], this => .ok this
  | access :: path, this =>
    match this.child? access with
    | some child => refer path child
    | .none => Except.error (this.refusal access)

theorem refer_eq_ok {path : List Access} {this found : Chunk ι} :
    refer path this = .ok found ↔ this.at? path = some found := by
  induction path generalizing this with
  | nil => simp [refer, at?]
  | cons access path ih =>
    rw [refer, at?]
    cases this.child? access with
    | none => simp
    | some child => exact ih

section Offsets
variable (f : ι → κ) (this : Chunk ι)

theorem child?_mapOffset (access : Access) :
    (this.mapOffset f).child? access = (this.child? access).map (mapOffset f) := by
  cases this with
  | none | string => cases access <;> rfl
  | map offset values =>
    cases access with
    | key name =>
      simp only [mapOffset, mapOffsetValues_eq, child?]
      exact OrderedMap.find?_map ..
    | index position => rfl
  | list offset elements =>
    cases access with
    | key name => rfl
    | index position => simp only [mapOffset, mapOffsetElements_eq, child?, List.getElem?_map]

theorem at?_mapOffset (path : List Access) :
    (this.mapOffset f).at? path = (this.at? path).map (mapOffset f) := by
  induction path generalizing this with
  | nil => rfl
  | cons access path ih =>
    rw [at?, at?, child?_mapOffset, Option.bind_map, Option.map_bind]
    exact Option.bind_congr fun child _ => ih child

theorem replaceAt_mapOffset (path : List Access) (new : Chunk ι) :
    (replaceAt path new this).mapOffset f = replaceAt path (new.mapOffset f) (this.mapOffset f) := by
  induction path generalizing this with
  | nil => rfl
  | cons access path ih =>
    match access, this with
    | .key name, .map offset values =>
      simp only [replaceAt, mapOffset, mapOffsetValues_eq, List.map_map]
      refine congrArg _ (List.map_congr_left fun entry _ => ?_)
      simp only [Function.comp]
      split
      · rw [ih]
      · rfl
    | .index position, .list offset elements =>
      simp only [replaceAt, mapOffset, mapOffsetElements_eq]
      refine congrArg _ (List.ext_getElem? fun index => ?_)
      simp only [List.getElem?_map, List.getElem?_modify]
      cases elements[index]? with
      | none => rfl
      | some element =>
        simp only [Option.map_some, Option.map_eq_map]
        split
        · rw [ih]
        · rfl
    | .key _, .none _ | .key _, .string _ _ | .key _, .list _ _ => rfl
    | .index _, .none _ | .index _, .string _ _ | .index _, .map _ _ => rfl

end Offsets

theorem plain_at? {root found : Allocated} {path : List Access} (at_ : root.at? path = some found) :
    root.plain.at? path = some found.plain := by
  rw [plain, at?_mapOffset, at_, Option.map_some]
  rfl

theorem plain_replaceAt (path : List Access) (new root : Allocated) :
    (replaceAt path new root).plain = replaceAt path new.plain root.plain :=
  replaceAt_mapOffset ..

/-- The place of a chunk is found in its value. -/
theorem at?_of_plain {root : Allocated} {path : List Access} {found : Chunkdat}
    (at_ : root.plain.at? path = some found) :
    ∃ place : Allocated, root.at? path = some place ∧ place.plain = found := by
  rw [plain, at?_mapOffset] at at_
  exact Option.map_eq_some_iff.mp at_

section Focus
variable {root child : Allocated} {access : Access}

theorem owns_unsorted (unsorted : ¬ root.KeysAscend) : Owns root = ⊥ := by
  cases root with
  | none | string | list => exact absurd trivial unsorted
  | map slot values =>
    rw [owns_map]
    exact iSup_neg unsorted

/-- A child apart from its parent and from the other children. -/
theorem focus_child (ascend : root.KeysAscend) (is : root.child? access = some child) :
    ∃ (S : Assertion Cell) (others : List Allocated),
      Owns root = Owns child * (S * OwnsAll others) ∧
      (∀ now : Allocated, now.address = child.address →
        Owns now * (S * OwnsAll others) ≤ Owns (replaceAt [access] now root)) ∧
      ∀ other found, other ≠ access → root.child? other = some found → found ∈ others := by
  match access, root with
  | .key name, .map slot values =>
    have sorted : OrderedMap.Sorted values := ascend
    have present : OrderedMap.find? name values = some child := is
    refine ⟨pointsTo slot.address (.chunkdat slot.offset (some slot.achunk)) *
      pointsTo slot.achunk (.map (pointers values)),
      (values.filter fun entry => entry.1 != name).map Prod.snd, ?_, fun now at_ => ?_, ?_⟩
    · have parts := ownsAll_perm ((sorted.find_perm present).map Prod.snd)
      simp only [List.map_cons, ownsAll_cons] at parts
      rw [owns_map, iSup_pos sorted, Body, parts]
      ac_rfl
    · have put : replaceAt [.key name] now (.map slot values) =
          .map slot (OrderedMap.insert name now values) := by
        rw [replaceAt, ← sorted.map_found present fun _ => now]
        rfl
      have ordered := sorted.insert name now
      rw [put, owns_map, iSup_pos ordered, Memory.body_insert slot sorted present at_]
      exact le_of_eq (by ac_rfl)
    · intro other found different there
      cases other with
      | index position => cases there
      | key key =>
        refine List.mem_map.mpr ⟨(key, found), List.mem_filter.mpr
          ⟨OrderedMap.mem_of_find? there, ?_⟩, rfl⟩
        exact bne_iff_ne.mpr fun same => different (congrArg _ same)
  | .index position, .list slot elements =>
    obtain ⟨inside, rfl⟩ := List.getElem?_eq_some_iff.mp is
    refine ⟨pointsTo slot.address (.chunkdat slot.offset (some slot.achunk)) *
      pointsTo slot.achunk (.list (elements.map address)), elements.eraseIdx position, ?_,
      fun now at_ => ?_, ?_⟩
    · have parts := ownsAll_perm (List.getElem_cons_eraseIdx_perm inside)
      rw [ownsAll_cons] at parts
      rw [owns_list, Body, ← parts]
      ac_rfl
    · have put : replaceAt [.index position] now (.list slot elements) =
          .list slot (elements.set position now) := by
        rw [replaceAt, List.set_eq_modify]
        rfl
      have pointed : (elements.set position now).map address = elements.map address := by
        rw [List.map_set, at_, ← List.getElem_map address (h := by simpa using inside)]
        exact List.set_getElem_self _
      have parts := ownsAll_perm (List.set_perm_cons_eraseIdx inside now)
      rw [ownsAll_cons] at parts
      rw [put, owns_list, Body, parts, pointed]
      exact le_of_eq (by ac_rfl)
    · intro other found different there
      cases other with
      | key name => cases there
      | index index =>
        refine List.mem_eraseIdx_iff_getElem?.mpr ⟨index, fun same => ?_, there⟩
        exact different (congrArg _ same)
  | .key _, .none _ | .key _, .string _ _ | .key _, .list _ _ => cases is
  | .index _, .none _ | .index _, .string _ _ | .index _, .map _ _ => cases is

theorem replaceAt_address {path : List Access} {now target : Allocated}
    (at_ : root.at? path = some target) (same : now.address = target.address) :
    (replaceAt path now root).address = root.address := by
  match path, root with
  | [], root =>
    obtain rfl := Option.some.inj at_
    exact same
  | .key _ :: _, .map _ _ | .index _ :: _, .list _ _ => rfl
  | .key _ :: _, .none _ | .key _ :: _, .string _ _ | .key _ :: _, .list _ _ => rfl
  | .index _ :: _, .none _ | .index _ :: _, .string _ _ | .index _ :: _, .map _ _ => rfl

theorem replaceAt_cons (ascend : root.KeysAscend) (is : root.child? access = some child)
    (path : List Access) (now : Allocated) :
    replaceAt (access :: path) now root = replaceAt [access] (replaceAt path now child) root := by
  match access, root with
  | .key name, .map slot values =>
    have sorted : OrderedMap.Sorted values := ascend
    have present : OrderedMap.find? name values = some child := is
    rw [replaceAt, replaceAt]
    refine congrArg _ (List.map_congr_left fun entry member => ?_)
    split
    · rename_i same
      have found := sorted.find?_of_mem member
      rw [same, present] at found
      rw [replaceAt, Option.some.inj found]
    · rfl
  | .index position, .list slot elements =>
    have present : elements[position]? = some child := is
    rw [replaceAt, replaceAt]
    refine congrArg _ (List.ext_getElem? fun index => ?_)
    rw [List.getElem?_modify, List.getElem?_modify]
    by_cases same : position = index
    · subst same
      simp only [present, if_true, Option.map_eq_map, Option.map_some, replaceAt]
    · simp only [if_neg same]
  | .key _, .none _ | .key _, .string _ _ | .key _, .list _ _ => cases is
  | .index _, .none _ | .index _, .string _ _ | .index _, .map _ _ => cases is

/-- What could be reached still can where a chunk takes the place of a sub-chunk from
which it could. -/
theorem stays_replaceAt {path : List Access} {target now : Allocated}
    (at_ : root.at? path = some target) (stays : target.Stays now) :
    root.Stays (replaceAt path now root) := by
  induction path generalizing root with
  | nil =>
    obtain rfl := Option.some.inj at_
    exact stays
  | cons access path ih =>
    obtain ⟨child, is, below⟩ := Option.bind_eq_some_iff.mp at_
    match access, root with
    | .key name, .map slot values =>
      refine stays_map fun other found there => ?_
      have same : (values.map fun entry =>
          if entry.1 = name then (entry.1, replaceAt path now entry.2) else entry) =
          values.map fun entry =>
            (entry.1, if entry.1 = name then replaceAt path now entry.2 else entry.2) :=
        List.map_congr_left fun entry _ => by split <;> rfl
      rw [same, OrderedMap.find?_mapWithKey (fun key value =>
        if key = name then replaceAt path now value else value), there, Option.map_some]
      refine ⟨_, rfl, ?_⟩
      by_cases here : other = name
      · subst here
        obtain rfl := Option.some.inj (there.symm.trans is)
        rw [if_pos rfl]
        exact ih below
      · rw [if_neg here]
        exact .refl found
    | .index position, .list slot elements =>
      refine stays_list fun other found there => ?_
      rw [List.getElem?_modify, there]
      refine ⟨_, rfl, ?_⟩
      by_cases here : position = other
      · subst here
        obtain rfl := Option.some.inj (there.symm.trans is)
        simpa only [if_true] using ih below
      · simpa only [if_neg here] using .refl found
    | .key _, .none _ | .key _, .string _ _ | .key _, .list _ _ => cases is
    | .index _, .none _ | .index _, .string _ _ | .index _, .map _ _ => cases is

/-- A sub-chunk apart from the rest of the chunk, which is as it was when another
chunk has taken the place of the sub-chunk. -/
theorem focus {path : List Access} {target : Allocated} (at_ : root.at? path = some target) :
    ∃ rest : Assertion Cell, Owns root = Owns target * rest ∧
      ∀ now : Allocated, now.address = target.address →
        Owns now * rest ≤ Owns (replaceAt path now root) := by
  induction path generalizing root with
  | nil =>
    obtain rfl := Option.some.inj at_
    exact ⟨1, (mul_one _).symm, fun now _ => (mul_one _).le⟩
  | cons access path ih =>
    obtain ⟨child, is, below⟩ := Option.bind_eq_some_iff.mp at_
    by_cases ascend : root.KeysAscend
    · obtain ⟨inner, owns, puts⟩ := ih below
      obtain ⟨S, others, splits, replaces, _⟩ := focus_child ascend is
      refine ⟨inner * (S * OwnsAll others), by rw [splits, owns, mul_assoc], fun now same => ?_⟩
      rw [replaceAt_cons ascend is, ← mul_assoc]
      exact (mul_le_mul_left (puts now same) _).trans (replaces _ (replaceAt_address below same))
    · refine ⟨⊥, ?_, fun now _ => ?_⟩
      · rw [owns_unsorted ascend, mul_comm, bot_mul]
      · rw [mul_comm, bot_mul]
        exact bot_le

/-- Two sub-chunks, neither a part of the other, apart from each other and from the
rest of the chunk. -/
theorem focus_apart {path other : List Access} {target operand : Allocated}
    (at_ : root.at? path = some target) (other_ : root.at? other = some operand)
    (apart : ¬ path <+: other ∧ ¬ other <+: path) :
    ∃ rest : Assertion Cell, Owns root = Owns target * (Owns operand * rest) ∧
      ∀ now : Allocated, now.address = target.address →
        Owns now * (Owns operand * rest) ≤ Owns (replaceAt path now root) := by
  induction path generalizing root other with
  | nil => exact absurd (List.nil_prefix) apart.1
  | cons access path ih =>
    cases other with
    | nil => exact absurd (List.nil_prefix) apart.2
    | cons access' other =>
      obtain ⟨child, is, below⟩ := Option.bind_eq_some_iff.mp at_
      obtain ⟨child', is', below'⟩ := Option.bind_eq_some_iff.mp other_
      by_cases ascend : root.KeysAscend
      · obtain ⟨S, others, splits, replaces, separate⟩ := focus_child ascend is
        by_cases same : access' = access
        · subst same
          obtain rfl := Option.some.inj (is.symm.trans is')
          obtain ⟨inner, owns, puts⟩ := ih below below'
            ⟨fun first => apart.1 (List.cons_prefix_cons.mpr ⟨rfl, first⟩),
              fun first => apart.2 (List.cons_prefix_cons.mpr ⟨rfl, first⟩)⟩
          refine ⟨inner * (S * OwnsAll others), by rw [splits, owns]; ac_rfl, fun now same => ?_⟩
          rw [replaceAt_cons ascend is]
          refine le_trans (le_of_eq ?_) ((mul_le_mul_left (puts now same) _).trans
            (replaces _ (replaceAt_address below same)))
          ac_rfl
        · obtain ⟨inner, owns, puts⟩ := focus below
          obtain ⟨beside, owns', _⟩ := focus below'
          obtain ⟨before, after, parts⟩ := List.append_of_mem (separate access' child' same is')
          have both : OwnsAll others =
              Owns operand * (beside * (OwnsAll before * OwnsAll after)) := by
            rw [parts, ownsAll_append, ownsAll_cons, owns']
            ac_rfl
          refine ⟨inner * (S * (beside * (OwnsAll before * OwnsAll after))), ?_,
            fun now same => ?_⟩
          · rw [splits, owns, both]
            ac_rfl
          · rw [replaceAt_cons ascend is]
            refine le_trans (le_of_eq ?_) ((mul_le_mul_left (puts now same) _).trans
              (replaces _ (replaceAt_address below same)))
            rw [both]
            ac_rfl
      · refine ⟨⊥, ?_, fun now _ => ?_⟩
        · rw [owns_unsorted ascend, mul_comm (Owns operand), bot_mul, mul_comm, bot_mul]
        · rw [mul_comm (Owns operand), bot_mul, mul_comm, bot_mul]
          exact bot_le

end Focus

end Chunk

namespace Memory
open Chunk

section Refer
variable {this : Allocated} {access : Access}

theorem subChunkRef_found {child : Allocated} (is : this.child? access = some child) :
    Triple (Owns this) (subChunkRef this.address access)
      (endsIn (.ok child.address) (Owns this)) := by
  rw [← mul_one (Owns this)]
  match access, this with
  | .key name, .map slot values =>
    have present : OrderedMap.find? name values = some child := is
    refine step_held _ rfl ?_
    simp only [find?_pointers, present, Option.map_some]
    exact .pure (le_endsIn le_rfl)
  | .index position, .list slot elements =>
    have present : elements[position]? = some child := is
    refine step_held _ rfl ?_
    simp only [List.getElem?_map, present, Option.map_some]
    exact .pure (le_endsIn le_rfl)
  | .key _, .none _ | .key _, .string _ _ | .key _, .list _ _ => cases is
  | .index _, .none _ | .index _, .string _ _ | .index _, .map _ _ => cases is

theorem subChunkRef_missing (is : this.child? access = .none) :
    Triple (Owns this) (subChunkRef this.address access)
      (endsIn (.error (.thrown (this.plain.refusal access))) (Owns this)) := by
  have refused (error : Text → FormatError) : Triple (Owns this * 1)
      (do
        let data ← str this.address
        Act.raise (error data) : Code Nat)
      (endsIn (.error (.thrown (error this.plain.str))) (Owns this * 1)) :=
    .step (str_spec this) _ rfl (.raise (le_endsIn le_rfl))
  rw [← mul_one (Owns this)]
  cases this with
  | none slot =>
    cases access with
    | key name => exact step_none slot (refused _)
    | index position => exact step_none slot (refused _)
  | string slot val =>
    cases access with
    | key name => exact step_held _ rfl (refused _)
    | index position => exact step_held _ rfl (refused _)
  | map slot values =>
    cases access with
    | key name =>
      have missing : OrderedMap.find? name values = .none := is
      refine step_held _ rfl ?_
      simp only [find?_pointers, missing, Option.map_none]
      rw [plain_map, refusal, ← plain_map]
      exact refused _
    | index position =>
      rw [plain_map, refusal, ← plain_map]
      · exact step_held _ rfl (refused _)
      · simp
  | list slot elements =>
    cases access with
    | key name =>
      rw [plain_list, refusal, ← plain_list]
      · exact step_held _ rfl (refused _)
      · simp
    | index position =>
      have missing : elements[position]? = .none := is
      refine step_held _ rfl ?_
      simp only [List.getElem?_map, missing, Option.map_none]
      rw [plain_list, refusal, ← plain_list]
      exact refused _

theorem refer_found {path : List Access} {found : Allocated} (at_ : this.at? path = some found) :
    Triple (Owns this) (refer path this.address) (endsIn (.ok found.address) (Owns this)) := by
  induction path generalizing this with
  | nil =>
    obtain rfl := Option.some.inj at_
    exact .pure (le_endsIn le_rfl)
  | cons access path ih =>
    obtain ⟨child, is, below⟩ := Option.bind_eq_some_iff.mp at_
    refine .step (subChunkRef_found is) 1 (mul_one _).symm ?_
    rw [mul_one]
    have here : this.at? [access] = some child := by rw [at?, is]; rfl
    obtain ⟨rest, owns, _⟩ := focus here
    exact .last (ih below) rest owns owns.ge

theorem refer_missing {path : List Access} {error : FormatError}
    (throws : this.plain.refer path = .error error) :
    Triple (Owns this) (refer path this.address)
      (endsIn (.error (.thrown error)) (Owns this)) := by
  induction path generalizing this with
  | nil => cases throws
  | cons access path ih =>
    rw [Chunk.refer, plain, child?_mapOffset] at throws
    cases is : this.child? access with
    | none =>
      rw [is] at throws
      cases throws
      exact .stop (subChunkRef_missing is) 1 (mul_one _).symm
        ((mul_one _).le.trans (le_endsIn le_rfl))
    | some child =>
      rw [is] at throws
      refine .step (subChunkRef_found is) 1 (mul_one _).symm ?_
      rw [mul_one]
      have here : this.at? [access] = some child := by rw [at?, is]; rfl
      obtain ⟨rest, owns, _⟩ := focus here
      exact .last (ih throws) rest owns owns.ge

end Refer

end Memory

end Ztd.Filedat
