import Ztd.Filedat.Programs

/-! Programs over chunks in memory do what they do on values: one lemma for each
command, and from them what holds along a program. -/

namespace Ztd.Filedat
open Ztd.Lib Ztd.Lib.Assertion Chunk

/-- The chunks of a program, with their addresses. -/
abbrev Roots := List (Nat × Allocated)

namespace Roots

def values (roots : Roots) : Objects := roots.map fun entry => (entry.1, entry.2.plain)

def pointers (roots : Roots) : Pointers := roots.map fun entry => (entry.1, entry.2.address)

def Own (roots : Roots) : Assertion Cell := OwnsAll (roots.map Prod.snd)

/-- Every chunk of the program is still there, and its sub-chunks are where they were. -/
def Stay (before after : Roots) : Prop := ∀ name root,
  OrderedMap.find? name before = some root →
    ∃ now, OrderedMap.find? name after = some now ∧ root.Stays now

section Finding
variable {name : Nat} (roots : Roots)

theorem find?_values :
    OrderedMap.find? name roots.values = (OrderedMap.find? name roots).map plain :=
  OrderedMap.find?_map ..

theorem find?_pointers :
    OrderedMap.find? name roots.pointers = (OrderedMap.find? name roots).map address :=
  OrderedMap.find?_map ..

theorem insert_values (chunk : Allocated) :
    values (OrderedMap.insert name chunk roots) = roots.values.enter name chunk.plain :=
  OrderedMap.insert_map ..

theorem insert_pointers (chunk : Allocated) :
    pointers (OrderedMap.insert name chunk roots) =
      OrderedMap.insert name chunk.address roots.pointers := OrderedMap.insert_map ..

end Finding

theorem Stay.refl (roots : Roots) : roots.Stay roots := fun _ root is => ⟨root, is, .refl root⟩

theorem Stay.trans {before after later : Roots} (first : before.Stay after)
    (second : after.Stay later) : before.Stay later := by
  intro name root is
  obtain ⟨now, there, stays⟩ := first name root is
  obtain ⟨last, is, still⟩ := second name now there
  exact ⟨last, is, stays.trans still⟩

theorem stay_insert {name : Nat} {roots : Roots} (chunk : Allocated)
    (missing : OrderedMap.find? name roots = .none) :
    roots.Stay (OrderedMap.insert name chunk roots) := by
  intro other root is
  have different : other ≠ name := by
    rintro rfl
    rw [missing] at is
    cases is
  exact ⟨root, by rw [OrderedMap.find?_insert_ne different, is], .refl root⟩

theorem stay_replace {name : Nat} {roots : Roots} {root now : Allocated}
    (is : OrderedMap.find? name roots = some root) (stays : root.Stays now) :
    roots.Stay (OrderedMap.insert name now roots) := by
  intro other found there
  rw [OrderedMap.find?_insert]
  split
  · rename_i same
    subst same
    obtain rfl := Option.some.inj (is.symm.trans there)
    exact ⟨now, rfl, stays⟩
  · exact ⟨found, there, .refl found⟩

end Roots

/-- What becomes of the chunks of a program, where references stay if this keeps them. -/
structure Becomes (keeps : Prop) (before : Roots) (objects : Objects) (pointers : Pointers)
    (after : Roots) : Prop where
  values : after.values = objects
  pointers : after.pointers = pointers
  sorted : OrderedMap.Sorted after
  stay : keeps → before.Stay after

/-- The memory is the chunks with these values, at these addresses. -/
def Leaves (keeps : Prop) (before : Roots) (objects : Objects) (pointers : Pointers) :
    Assertion Cell := ⨆ after : Roots, ⨆ _ : Becomes keeps before objects pointers after, after.Own

/-- How a command ends in memory, by how it ends on values. -/
def Commands (keeps : Prop) (before : Roots) (objects : Objects) (outcome : Outcome) :
    Except (Stop FormatError) (Pointers × Text) → Assertion Cell
  | .ok (pointers, text) => ⨆ _ : outcome = .ok text, Leaves keeps before objects pointers
  | .error (.thrown error) =>
    ⨆ _ : outcome = .error error, Leaves keeps before objects before.pointers
  | _ => ⊥

namespace Operation
open Memory
variable (allocator : Allocator Cell)

/-- A call whose operand is not a part of the chunk. -/
theorem call_spec (operation : Operation) (this chk : Allocated) :
    Triple (Owns this * Owns chk) (operation.call allocator this.address chk.address)
      (endsIn (ended (operation.edit this.plain chk.plain).2)
        (LeftAt operation.Grows this (operation.edit this.plain chk.plain).1 * Owns chk)) := by
  have edits {edit : Edited Int} {act : Code Unit} (does : Triple (Owns this * Owns chk) act
      (Edits this edit (Owns chk))) : Triple (Owns this * Owns chk) act
        (endsIn (ended edit.2) (LeftAt operation.Grows this edit.1 * Owns chk)) :=
    .last does 1 (mul_one _).symm
      ((mul_one _).le.trans (mul_le_mul_left (editedAt_le_leftAt _ _ _) _))
  cases operation with
  | set =>
    refine .last (setChunk_spec allocator this chk) 1 (mul_one _).symm ?_
    rw [mul_one, edit, setChunk_eq]
    exact mul_le_mul_left (valueAt_le_leftAt id _ _) _
  | addToMap name => exact edits (addToMap_spec chk this name)
  | addToList => exact edits (addToList_spec chk this)
  | concatenate => exact edits (concatenate_spec this chk)
  | merge overwrite => exact merge_spec this chk

/-- A call that is allowed where one of the chunks is a part of the other. -/
theorem call_within {operation : Operation} {this chk : Allocated} {R G : Assertion Cell}
    (allowed : operation.allowed false this.plain = true)
    (within : Owns this * R = Owns chk * G) :
    Triple (Owns this * R) (operation.call allocator this.address chk.address)
      (endsIn (ended (operation.edit this.plain chk.plain).2)
        (LeftAt operation.Grows this (operation.edit this.plain chk.plain).1 * R)) := by
  cases operation with
  | set | concatenate | merge => cases allowed
  | addToMap name =>
    have filled : this.type ≠ .none := by simpa [Operation.allowed] using allowed
    exact .last (addToMap_filled filled within name) 1 (mul_one _).symm
      ((mul_one _).le.trans (mul_le_mul_left (editedAt_le_leftAt _ _ _) _))
  | addToList =>
    have filled : this.type ≠ .none := by simpa [Operation.allowed] using allowed
    exact .last (addToList_filled filled within) 1 (mul_one _).symm
      ((mul_one _).le.trans (mul_le_mul_left (editedAt_le_leftAt _ _ _) _))

/-- How a binary operator ends: the result is a chunk of its own, and nothing is left of
it when an exception is thrown. -/
def Expresses (own : Assertion Cell) :
    Edited Int → Except (Stop FormatError) Nat → Assertion Cell
  | (ret, .none) => returns fun address => ValueAt address ret * own
  | (_, some error) => endsIn (.error (.thrown error)) own

theorem edited_spec (operation : Operation) {chunk other : Allocated} {own G F : Assertion Cell}
    (first : own = Owns chunk * G) (second : own = Owns other * F) :
    Triple own (edited allocator (fun ret => operation.call allocator ret other.address)
        chunk.address) (Expresses own (operation.edit chunk.plain other.plain)) := by
  refine .step_returns (copies_within first) 1 (mul_one _).symm fun ret => ?_
  rw [mul_one]
  simp only [ValueAt, iSup_mul]
  refine .exists_pre fun copy => .exists_pre fun copied => ?_
  obtain ⟨same, rfl⟩ := copied
  have calls := operation.call_spec allocator copy other
  rw [same] at calls
  have split : Owns copy * own = Owns copy * Owns other * F := by rw [second, mul_assoc]
  cases edit : operation.edit chunk.plain other.plain with
  | mk after stop =>
    rw [edit] at calls
    cases stop with
    | none =>
      refine .step (.onThrow calls fun _ thrown => by cases thrown) F split (.pure ?_)
      rw [mul_assoc, ← second]
      exact mul_le_mul_left (leftAt_le_valueAt _ copy after) _
    | some error =>
      have deletes : Triple (LeftAt operation.Grows copy after * Owns other)
          (delete copy.address) (endsIn (.ok ()) (Owns other)) := by
        simp only [LeftAt, iSup_mul]
        refine .exists_pre fun now => .exists_pre fun left => ?_
        rw [← left.2.1]
        exact .last (delete_spec now) _ rfl (one_mul _).le
      exact .stop (.onThrow_thrown calls deletes) F split (le_endsIn second.ge)

end Operation

section Commands
variable {keeps : Prop} {roots : Roots} {objects : Objects} {outcome : Outcome}

theorem own_le_leaves (keeps : Prop) (sorted : OrderedMap.Sorted roots) :
    roots.Own ≤ Leaves keeps roots roots.values roots.pointers :=
  le_iSup₂_of_le roots ⟨rfl, rfl, sorted, fun _ => .refl roots⟩ le_rfl

theorem pure_commands {P : Assertion Cell} {pointers : Pointers} {text : Text}
    (leaves : P ≤ Leaves keeps roots objects pointers) :
    Triple P (pure (pointers, text) : Code _) (Commands keeps roots objects (.ok text)) :=
  .pure (leaves.trans (le_iSup_of_le (f := fun _ : Except.ok text = Except.ok text =>
    Leaves keeps roots objects pointers) rfl le_rfl))

/-- A command that throws leaves the names as they are. -/
theorem thrown_commands {α : Type} {pre P Q F : Assertion Cell} {act : Code α}
    {next : α → Code (Pointers × Text)} {error : FormatError}
    (throws : Triple P act (endsIn (.error (.thrown error)) Q)) (split : pre = P * F)
    (leaves : Q * F ≤ Leaves keeps roots objects roots.pointers) :
    Triple pre (act >>= next) (Commands keeps roots objects (.error error)) :=
  .stop throws F split (leaves.trans (le_iSup_of_le
    (f := fun _ : (Except.error error : Outcome) = Except.error error =>
      Leaves keeps roots objects roots.pointers) rfl le_rfl))

theorem ended_commands {P Q : Assertion Cell} {act : Code Unit} {stop : Option FormatError}
    (ends : Triple P act (endsIn (Memory.ended stop) Q))
    (leaves : Q ≤ Leaves keeps roots objects roots.pointers) :
    Triple P (act >>= fun _ => pure (roots.pointers, [])) (Commands keeps roots objects
      (returned stop)) := by
  cases stop with
  | none =>
    refine .step ends 1 (mul_one _).symm (pure_commands ?_)
    rwa [mul_one]
  | some error =>
    exact thrown_commands ends (mul_one _).symm ((mul_one _).le.trans leaves)

section Scope
variable {name : Nat}

theorem own_insert (chunk : Allocated) (missing : OrderedMap.find? name roots = .none) :
    Roots.Own (OrderedMap.insert name chunk roots) = Owns chunk * roots.Own := by
  have perm := (OrderedMap.insert_perm chunk missing).map Prod.snd
  rw [Roots.Own, ownsAll_perm perm, List.map_cons, ownsAll_cons, Roots.Own]

theorem own_focus {root : Allocated} (sorted : OrderedMap.Sorted roots)
    (is : OrderedMap.find? name roots = some root) :
    roots.Own = Owns root * Roots.Own (roots.filter fun entry => entry.1 != name) := by
  have perm := (sorted.find_perm is).map Prod.snd
  rw [Roots.Own, ownsAll_perm perm, List.map_cons, ownsAll_cons, Roots.Own]

/-- A chunk that enters the scope. -/
theorem enter_leaves (sorted : OrderedMap.Sorted roots)
    (missing : OrderedMap.find? name roots = .none) (address : Nat) (chunk : Chunkdat) :
    Memory.ValueAt address chunk * roots.Own ≤
      Leaves keeps roots (roots.values.enter name chunk)
        (OrderedMap.insert name address roots.pointers) := by
  simp only [Memory.ValueAt, iSup_mul]
  refine iSup₂_le fun copy is => le_iSup₂_of_le (OrderedMap.insert name copy roots)
    ⟨?_, ?_, sorted.insert name copy, fun _ => Roots.stay_insert copy missing⟩
    (own_insert copy missing).ge
  · rw [Roots.insert_values, is.1]
  · rw [Roots.insert_pointers, is.2]

end Scope

section Places
variable {place : Place} {root target : Allocated}

/-- A chunk that takes the place of another one. -/
theorem write_leaves (sorted : OrderedMap.Sorted roots)
    (is : OrderedMap.find? place.variable_ roots = some root)
    (at_ : root.at? place.path = some target) {now : Allocated}
    (same : now.address = target.address) (stays : keeps → target.Stays now) :
    Owns (replaceAt place.path now root) *
        Roots.Own (roots.filter fun entry => entry.1 != place.variable_) ≤
      Leaves keeps roots (roots.values.write place now.plain) roots.pointers := by
  let written := replaceAt place.path now root
  refine le_iSup₂_of_le (OrderedMap.insert place.variable_ written roots) ⟨?_, ?_,
    sorted.insert place.variable_ written, fun kept => Roots.stay_replace is
      (stays_replaceAt at_ (stays kept))⟩ ?_
  · have ordered : OrderedMap.Sorted roots.values := sorted.map plain
    have found : OrderedMap.find? place.variable_ roots.values = some root.plain := by
      rw [Roots.find?_values, is, Option.map_some]
    rw [Roots.insert_values, Objects.write, ordered.map_found found, Objects.enter,
      plain_replaceAt]
  · have ordered : OrderedMap.Sorted roots.pointers := sorted.map address
    rw [Roots.insert_pointers, replaceAt_address at_ same]
    exact ordered.insert_found (by rw [Roots.find?_pointers, is, Option.map_some])
  · have owned := own_focus (sorted.insert place.variable_ written)
      (OrderedMap.find?_insert_self place.variable_ written roots)
    rw [OrderedMap.filter_insert] at owned
    exact owned.ge

/-- The chunk at a place, apart from what else the program has. -/
theorem place_focus (keeps : Prop) (sorted : OrderedMap.Sorted roots)
    (is : OrderedMap.find? place.variable_ roots = some root)
    (at_ : root.at? place.path = some target) :
    ∃ rest : Assertion Cell, roots.Own = Owns target * rest ∧
      ∀ now : Allocated, now.address = target.address → (keeps → target.Stays now) →
        Owns now * rest ≤ Leaves keeps roots (roots.values.write place now.plain) roots.pointers := by
  obtain ⟨inner, owns, puts⟩ := focus at_
  refine ⟨inner * Roots.Own (roots.filter fun entry => entry.1 != place.variable_), ?_,
    fun now same stays => ?_⟩
  · rw [own_focus sorted is, owns, mul_assoc]
  · rw [← mul_assoc]
    exact (mul_le_mul_left (puts now same) _).trans (write_leaves sorted is at_ same stays)

/-- The chunks at two places, neither a part of the other one. -/
theorem places_apart (keeps : Prop) {other : Place} {root' operand : Allocated} (sorted : OrderedMap.Sorted roots)
    (is : OrderedMap.find? place.variable_ roots = some root)
    (at_ : root.at? place.path = some target)
    (is' : OrderedMap.find? other.variable_ roots = some root')
    (at_' : root'.at? other.path = some operand) (apart : place.apart other = true) :
    ∃ rest : Assertion Cell, roots.Own = Owns target * (Owns operand * rest) ∧
      ∀ now : Allocated, now.address = target.address → (keeps → target.Stays now) →
        Owns now * (Owns operand * rest) ≤
          Leaves keeps roots (roots.values.write place now.plain) roots.pointers := by
  by_cases same : other.variable_ = place.variable_
  · rw [same] at is'
    obtain rfl := Option.some.inj (is.symm.trans is')
    have separate : ¬ place.path <+: other.path ∧ ¬ other.path <+: place.path := by
      simpa [Place.apart, same, ← List.isPrefixOf_iff_prefix] using apart
    obtain ⟨inner, owns, puts⟩ := focus_apart at_ at_' separate
    refine ⟨inner * Roots.Own (roots.filter fun entry => entry.1 != place.variable_), ?_,
      fun now same stays => ?_⟩
    · rw [own_focus sorted is, owns]
      ac_rfl
    · refine le_trans (le_of_eq ?_) ((mul_le_mul_left (puts now same) _).trans
        (write_leaves sorted is at_ same stays))
      ac_rfl
  · obtain ⟨inner, owns, puts⟩ := focus at_
    obtain ⟨beside, owns', _⟩ := focus at_'
    let others := roots.filter fun entry => entry.1 != place.variable_
    have there : OrderedMap.find? other.variable_ others = some root' := by
      have member : (other.variable_, root') ∈ others :=
        List.mem_filter.mpr ⟨OrderedMap.mem_of_find? is', bne_iff_ne.mpr same⟩
      exact (sorted.filter _).find?_of_mem member
    have rest := own_focus (sorted.filter _) there
    refine ⟨inner * (beside * Roots.Own (others.filter fun entry => entry.1 != other.variable_)),
      ?_, fun now same stays => ?_⟩
    · rw [own_focus sorted is, owns, rest, owns']
      ac_rfl
    · refine le_trans (le_of_eq ?_) ((mul_le_mul_left (puts now same) _).trans
        (write_leaves sorted is at_ same stays))
      rw [rest, owns']
      ac_rfl

end Places

section Following
variable {place : Place} {next : Chunkdat → Option (Objects × Outcome)}
  {code : Nat → Code (Pointers × Text)}

/-- Code that goes on with the chunk at a place. -/
theorem follow_commands (sorted : OrderedMap.Sorted roots)
    (effect : roots.values.follow place next = some (objects, outcome))
    (later : ∀ root target, OrderedMap.find? place.variable_ roots = some root →
      root.at? place.path = some target → next target.plain = some (objects, outcome) →
        Triple roots.Own (code target.address) (Commands keeps roots objects outcome)) :
    Triple roots.Own (roots.pointers.locate place >>= code)
      (Commands keeps roots objects outcome) := by
  rw [Objects.follow, Roots.find?_values] at effect
  rw [Pointers.locate, Roots.find?_pointers]
  cases is : OrderedMap.find? place.variable_ roots with
  | none =>
    rw [is] at effect
    cases effect
  | some root =>
    have owns := own_focus sorted is
    simp only [is, Option.map_some] at effect ⊢
    cases refers : root.plain.refer place.path with
    | error error =>
      rw [refers] at effect
      obtain ⟨rfl, rfl⟩ := Prod.mk.inj (Option.some.inj effect)
      exact thrown_commands (Memory.refer_missing refers) owns
        (owns.ge.trans (own_le_leaves keeps sorted))
    | ok chunk =>
      rw [refers] at effect
      obtain ⟨target, at_, rfl⟩ := at?_of_plain (refer_eq_ok.mp refers)
      refine .step (Memory.refer_found at_) _ owns ?_
      rw [← owns]
      exact later root target is at_ effect

end Following

end Commands

/-- References into the chunks of the program stay valid. -/
def Command.Keeps : Command → Prop
  | .perform operation _ _ => operation.Grows
  | .destroy _ | .setText _ _ _ | .clear _ | .eraseKey _ _ | .eraseIndex _ _ => False
  | _ => True

section Each
variable {allocator : Allocator Cell} {blanks : BlankRun} {roots : Roots} {objects : Objects}
  {outcome : Outcome}

theorem kept_cases {setting : Setting} {chunk : Chunkdat} {stop : Option FormatError}
    (kept : setting.kept = some (chunk, stop)) :
    stop = .none ∧ setting = (chunk, .none) ∨
      ∃ error, stop = some error ∧ setting = (chunk, some (.thrown error)) ∧ chunk.type = .none := by
  obtain ⟨left, _ | error | _ | _⟩ := setting
  · cases kept
    exact .inl ⟨rfl, rfl⟩
  · rw [Setting.kept] at kept
    split at kept
    · rename_i empty
      cases kept
      exact .inr ⟨error, rfl, rfl, empty⟩
    · cases kept
  · cases kept
  · cases kept

/-- A chunk that is made enters the scope. -/
theorem enters {keeps : Prop} {name : Nat} {act : Code Nat} {chunk : Chunkdat} (sorted : OrderedMap.Sorted roots)
    (missing : OrderedMap.find? name roots = .none)
    (makes : Triple roots.Own act (returns fun address => Memory.ValueAt address chunk * roots.Own)) :
    Triple roots.Own (do
        let this ← act
        pure (OrderedMap.insert name this roots.pointers, []))
      (Commands keeps roots (roots.values.enter name chunk) (.ok [])) := by
  refine .step_returns makes 1 (mul_one _).symm fun this => pure_commands ?_
  rw [mul_one]
  exact enter_leaves sorted missing this chunk

theorem missing_of_values {name : Nat} (missing : OrderedMap.find? name roots.values = .none) :
    OrderedMap.find? name roots = .none := by
  rwa [Roots.find?_values, Option.map_eq_none_iff] at missing

theorem declare_spec {name : Nat} (sorted : OrderedMap.Sorted roots)
    (effect : (Command.declare name).effect blanks roots.values = some (objects, outcome)) :
    Triple roots.Own ((Command.declare name).run allocator blanks roots.pointers)
      (Commands True roots objects outcome) := by
  rw [Command.effect] at effect
  cases is : OrderedMap.find? name roots.values with
  | some found =>
    rw [is] at effect
    cases effect
  | none =>
    rw [is] at effect
    obtain ⟨rfl, rfl⟩ := Prod.mk.inj (Option.some.inj effect)
    refine enters sorted (missing_of_values is) ?_
    refine .consequence (.frame_returns (.alloc allocator _) roots.Own) (one_mul _).ge
      fun outcome => ?_
    cases outcome with
    | error stop => exact le_rfl
    | ok this =>
      have made := Memory.owns_le_valueAt (rfl : plain (.none ⟨0, this, 0⟩) = .none 0)
      rw [owns_none] at made
      exact mul_le_mul_left made _

theorem construct_spec {name : Nat} {text : Text} {offset : Int} (sorted : OrderedMap.Sorted roots)
    (effect : (Command.construct name text offset).effect blanks roots.values =
      some (objects, outcome)) :
    Triple roots.Own ((Command.construct name text offset).run allocator blanks roots.pointers)
      (Commands True roots objects outcome) := by
  have makes := Memory.construct_spec allocator blanks text offset
  rw [Command.effect] at effect
  cases is : OrderedMap.find? name roots.values with
  | some found =>
    rw [is] at effect
    cases effect
  | none =>
    rw [is] at effect
    cases kept : (set blanks text offset).kept with
    | none =>
      rw [kept] at effect
      cases effect
    | some setting =>
      obtain ⟨chunk, stop⟩ := setting
      rw [kept] at effect
      rcases kept_cases kept with ⟨rfl, sets⟩ | ⟨error, rfl, sets, empty⟩
      · obtain ⟨rfl, rfl⟩ := Prod.mk.inj (Option.some.inj effect)
        rw [sets] at makes
        refine enters sorted (missing_of_values is) ?_
        exact .consequence (.frame_returns makes roots.Own) (one_mul _).ge fun _ => le_rfl
      · obtain ⟨rfl, rfl⟩ := Prod.mk.inj (Option.some.inj effect)
        rw [sets, Memory.Constructs, if_pos empty] at makes
        exact thrown_commands makes (one_mul _).symm
          ((one_mul _).le.trans (own_le_leaves True sorted))

theorem copy_spec {name : Nat} {chk : Place} (sorted : OrderedMap.Sorted roots)
    (effect : (Command.copy name chk).effect blanks roots.values = some (objects, outcome)) :
    Triple roots.Own ((Command.copy name chk).run allocator blanks roots.pointers)
      (Commands True roots objects outcome) := by
  rw [Command.effect] at effect
  cases is : OrderedMap.find? name roots.values with
  | some found =>
    rw [is] at effect
    cases effect
  | none =>
    rw [is] at effect
    refine follow_commands sorted effect fun root target found at_ made => ?_
    obtain ⟨rfl, rfl⟩ := Prod.mk.inj (Option.some.inj made)
    obtain ⟨rest, owns, _⟩ := place_focus True sorted found at_
    rw [copy_eq]
    exact enters sorted (missing_of_values is) (Memory.copies_within owns)

theorem express_spec {name : Nat} {operation : Operation} {a b : Place}
    (sorted : OrderedMap.Sorted roots) (effect : (Command.express name operation a b).effect blanks
      roots.values = some (objects, outcome)) :
    Triple roots.Own ((Command.express name operation a b).run allocator blanks roots.pointers)
      (Commands True roots objects outcome) := by
  rw [Command.effect] at effect
  cases is : OrderedMap.find? name roots.values with
  | some found =>
    rw [is] at effect
    cases effect
  | none =>
    rw [is] at effect
    refine follow_commands sorted effect fun root chunk found at_ goes => ?_
    refine follow_commands sorted goes fun root' other found' at_' ends => ?_
    obtain ⟨rest, owns, _⟩ := place_focus True sorted found at_
    obtain ⟨rest', owns', _⟩ := place_focus True sorted found' at_'
    have edits := operation.edited_spec allocator owns owns'
    rw [copy_eq] at ends
    cases edit : operation.edit chunk.plain other.plain with
    | mk ret stop =>
      rw [edit] at edits ends
      cases stop with
      | none =>
        obtain ⟨rfl, rfl⟩ := Prod.mk.inj (Option.some.inj ends)
        exact enters sorted (missing_of_values is) edits
      | some error =>
        obtain ⟨rfl, rfl⟩ := Prod.mk.inj (Option.some.inj ends)
        exact thrown_commands edits (mul_one _).symm
          ((mul_one _).le.trans (own_le_leaves True sorted))

theorem destroy_spec {name : Nat} (sorted : OrderedMap.Sorted roots)
    (effect : (Command.destroy name).effect blanks roots.values = some (objects, outcome)) :
    Triple roots.Own ((Command.destroy name).run allocator blanks roots.pointers)
      (Commands False roots objects outcome) := by
  rw [Command.effect, Roots.find?_values] at effect
  rw [Command.run, Roots.find?_pointers]
  cases is : OrderedMap.find? name roots with
  | none =>
    rw [is] at effect
    cases effect
  | some root =>
    simp only [is, Option.map_some] at effect ⊢
    obtain ⟨rfl, rfl⟩ := Prod.mk.inj (Option.some.inj effect)
    refine .step (Memory.delete_spec root) _ (own_focus sorted is) (pure_commands ?_)
    rw [one_mul]
    refine le_iSup₂_of_le (roots.filter fun entry => entry.1 != name)
      ⟨?_, ?_, sorted.filter _, fun keeps => keeps.elim⟩ le_rfl
    · simp only [Roots.values, List.filter_map]
      rfl
    · simp only [Roots.pointers, List.filter_map]
      rfl

section Calls
variable {this : Place}

/-- A call that changes the chunk at a place and nothing else. -/
theorem change_spec {act : Nat → Code Unit} (change : Chunkdat → Edited Int)
    (sorted : OrderedMap.Sorted roots)
    (changes : ∀ (target : Allocated) (R : Assertion Cell), Triple (Owns target * R)
      (act target.address) (endsIn (Memory.ended (change target.plain).2)
        (Memory.ValueAt target.address (change target.plain).1 * R)))
    (effect : (roots.values.follow this fun chunk =>
      some (roots.values.write this (change chunk).1, returned (change chunk).2)) =
        some (objects, outcome)) :
    Triple roots.Own (do
        let this ← roots.pointers.locate this
        act this
        pure (roots.pointers, []))
      (Commands False roots objects outcome) := by
  refine follow_commands sorted effect fun root target found at_ ends => ?_
  obtain ⟨rfl, rfl⟩ := Prod.mk.inj (Option.some.inj ends)
  obtain ⟨rest, owns, puts⟩ := place_focus False sorted found at_
  rw [owns]
  refine ended_commands (changes target rest) ?_
  simp only [Memory.ValueAt, iSup_mul]
  refine iSup₂_le fun now is => ?_
  rw [← is.1]
  exact puts now is.2 False.elim

theorem setText_spec {text : Text} {offset : Int} (sorted : OrderedMap.Sorted roots)
    (effect : (Command.setText this text offset).effect blanks roots.values =
      some (objects, outcome)) :
    Triple roots.Own ((Command.setText this text offset).run allocator blanks roots.pointers)
      (Commands False roots objects outcome) := by
  rw [Command.effect] at effect
  cases kept : (set blanks text offset).kept with
  | none =>
    simp only [kept] at effect
    exact follow_commands sorted effect fun _ _ _ _ ends => nomatch ends
  | some setting =>
    obtain ⟨chunk, stop⟩ := setting
    simp only [kept] at effect
    refine change_spec (fun _ => (chunk, stop)) sorted (fun target R => ?_) effect
    have sets := Memory.setText_spec allocator blanks target text offset
    rcases kept_cases kept with ⟨rfl, is⟩ | ⟨error, rfl, is, empty⟩
    · rw [is] at sets
      exact .last sets R rfl le_rfl
    · rw [is, Memory.Sets, Memory.losses, if_pos empty, mul_one] at sets
      exact .last sets R rfl le_rfl

theorem clear_spec (sorted : OrderedMap.Sorted roots)
    (effect : (Command.clear this).effect blanks roots.values = some (objects, outcome)) :
    Triple roots.Own ((Command.clear this).run allocator blanks roots.pointers)
      (Commands False roots objects outcome) := by
  refine change_spec (fun chunk => (chunk.clear, .none)) sorted (fun target R => ?_) effect
  refine .last (Memory.clear_spec target) R rfl (mul_le_mul_left ?_ R)
  have cleared : plain (.none target.offset) = target.plain.clear := by
    rw [plain_none, Chunk.clear, plain_offset]
  exact Memory.owns_le_valueAt cleared

theorem print_spec {alignment : UInt32} {aligner : Text} (sorted : OrderedMap.Sorted roots)
    (effect : (Command.print this alignment aligner).effect blanks roots.values =
      some (objects, outcome)) :
    Triple roots.Own ((Command.print this alignment aligner).run allocator blanks roots.pointers)
      (Commands True roots objects outcome) := by
  refine follow_commands sorted effect fun root target found at_ ends => ?_
  obtain ⟨rfl, rfl⟩ := Prod.mk.inj (Option.some.inj ends)
  obtain ⟨rest, owns, _⟩ := place_focus True sorted found at_
  refine .step (Memory.strval_spec target) rest owns (pure_commands ?_)
  rw [← owns]
  exact own_le_leaves True sorted

/-- A call with a chunk at another place. -/
theorem perform_spec {operation : Operation} {chk : Place} (sorted : OrderedMap.Sorted roots)
    (effect : (Command.perform operation this chk).effect blanks roots.values =
      some (objects, outcome)) :
    Triple roots.Own ((Command.perform operation this chk).run allocator blanks roots.pointers)
      (Commands operation.Grows roots objects outcome) := by
  refine follow_commands sorted effect fun root target found at_ goes => ?_
  refine follow_commands sorted goes fun root' operand found' at_' ends => ?_
  by_cases allowed : operation.allowed (this.apart chk) target.plain = true
  · rw [if_pos allowed] at ends
    obtain ⟨rfl, rfl⟩ := Prod.mk.inj (Option.some.inj ends)
    by_cases apart : this.apart chk = true
    · obtain ⟨rest, owns, puts⟩ := places_apart operation.Grows sorted found at_ found'
        at_' apart
      have calls := (operation.call_spec allocator target operand).frame_endsIn rest
      rw [owns, ← mul_assoc]
      refine ended_commands calls ?_
      simp only [Memory.LeftAt, iSup_mul]
      refine iSup₂_le fun now left => ?_
      rw [← left.1, mul_assoc]
      exact puts now left.2.1 left.2.2
    · obtain ⟨rest, owns, puts⟩ := place_focus operation.Grows sorted found at_
      obtain ⟨rest', owns', _⟩ := place_focus operation.Grows sorted found' at_'
      rw [Bool.not_eq_true] at apart
      rw [apart] at allowed
      have calls := Operation.call_within allocator allowed (owns.symm.trans owns')
      rw [owns]
      refine ended_commands calls ?_
      simp only [Memory.LeftAt, iSup_mul]
      refine iSup₂_le fun now left => ?_
      rw [← left.1]
      exact puts now left.2.1 left.2.2
  · rw [if_neg allowed] at ends
    cases ends

end Calls

/-- A command does in memory what it does on values. -/
theorem run_spec (allocator : Allocator Cell) (command : Command) (sorted : OrderedMap.Sorted roots)
    (effect : command.effect blanks roots.values = some (objects, outcome)) :
    Triple roots.Own (command.run allocator blanks roots.pointers)
      (Commands command.Keeps roots objects outcome) := by
  cases command with
  | declare name => exact declare_spec sorted effect
  | construct name text offset => exact construct_spec sorted effect
  | copy name chk => exact copy_spec sorted effect
  | express name operation a b => exact express_spec sorted effect
  | destroy name => exact destroy_spec sorted effect
  | setText this text offset => exact setText_spec sorted effect
  | perform operation this chk => exact perform_spec sorted effect
  | clear this => exact clear_spec sorted effect
  | eraseKey this key =>
    exact change_spec _ sorted (fun target R => Memory.eraseKey_spec target key) effect
  | eraseIndex this index =>
    exact change_spec _ sorted (fun target R => Memory.eraseIndex_spec target index) effect
  | print this alignment aligner => exact print_spec sorted effect

end Each

section Runs
variable {allocator : Allocator Cell} {blanks : BlankRun}

/-- How a program ends in memory, by how it ends on values. -/
def Programs (keeps : Prop) (before : Roots) (objects : Objects) (outcomes : List Outcome) :
    Except (Stop FormatError) (Pointers × List Outcome) → Assertion Cell
  | .ok (pointers, ended) => ⨆ _ : ended = outcomes, Leaves keeps before objects pointers
  | .error _ => ⊥

/-- How a command ends, with its outcome as a value. -/
def Catches (keeps : Prop) (before : Roots) (objects : Objects) (outcome : Outcome) :
    Except (Stop FormatError) (Pointers × Outcome) → Assertion Cell
  | .ok (pointers, ended) => ⨆ _ : ended = outcome, Leaves keeps before objects pointers
  | .error (.thrown error) =>
    ⨆ _ : outcome = .error error, Leaves keeps before objects before.pointers
  | .error _ => ⊥

/-- How a command ends that is caught. -/
def Caught (keeps : Prop) (before : Roots) (objects : Objects) (outcome : Outcome) :
    Except (Stop FormatError) (Pointers × Outcome) → Assertion Cell
  | .ok (pointers, ended) => ⨆ _ : ended = outcome, Leaves keeps before objects pointers
  | .error _ => ⊥

theorem caught_spec {command : Command} {roots : Roots} {objects : Objects} {outcome : Outcome}
    (sorted : OrderedMap.Sorted roots)
    (effect : command.effect blanks roots.values = some (objects, outcome)) :
    Triple roots.Own
      (Act.catchError (do
          let (pointers, text) ← command.run allocator blanks roots.pointers
          pure (pointers, .ok text))
        fun error => pure (roots.pointers, .error error))
      (Caught command.Keeps roots objects outcome) := by
  have runs := run_spec allocator command sorted effect
  refine .catchError (M := Catches command.Keeps roots objects outcome) ?_ (fun _ => le_rfl)
    (fun error => ?_) le_rfl le_rfl
  · refine .bind runs (fun ended => .pure ?_) fun stop => ?_
    · exact iSup_mono' fun is => ⟨is.symm, le_rfl⟩
    · cases stop with
      | thrown error => exact le_rfl
      | fault | diverged => exact le_rfl
  · refine .exists_pre fun is => .pure ?_
    rw [is]
    exact le_iSup_of_le (f := fun _ : (Except.error error : Outcome) = .error error =>
      Leaves command.Keeps roots objects roots.pointers) rfl le_rfl

theorem leaves_trans {keeps first later : Prop} {roots after : Roots} {objects middle : Objects}
    {pointers between : Pointers} (becomes : Becomes first roots middle between after)
    (both : keeps → first ∧ later) :
    Leaves later after objects pointers ≤ Leaves keeps roots objects pointers :=
  iSup₂_mono' fun now becomes' => ⟨now, ⟨becomes'.values, becomes'.pointers, becomes'.sorted,
    fun kept => (becomes.stay (both kept).1).trans (becomes'.stay (both kept).2)⟩, le_rfl⟩

/-- A program does in memory what it does on values. -/
theorem execute_spec (allocator : Allocator Cell) (commands : List Command) {roots : Roots} {objects : Objects}
    {outcomes : List Outcome} (sorted : OrderedMap.Sorted roots)
    (plays : play blanks commands roots.values = some (objects, outcomes)) :
    Triple roots.Own (execute allocator blanks commands roots.pointers)
      (Programs (∀ command ∈ commands, command.Keeps) roots objects outcomes) := by
  induction commands generalizing roots outcomes with
  | nil =>
    obtain ⟨rfl, rfl⟩ := Prod.mk.inj (Option.some.inj plays)
    exact .pure ((own_le_leaves _ sorted).trans (le_iSup_of_le
      (f := fun _ : ([] : List Outcome) = [] => Leaves _ roots roots.values roots.pointers) rfl le_rfl))
  | cons command rest ih =>
    rw [play] at plays
    cases effect : command.effect blanks roots.values with
    | none =>
      rw [effect] at plays
      cases plays
    | some ended =>
      obtain ⟨middle, outcome⟩ := ended
      rw [effect] at plays
      obtain ⟨⟨final, later⟩, played, same⟩ := Option.map_eq_some_iff.mp plays
      obtain ⟨rfl, rfl⟩ := Prod.mk.inj same
      refine .bind (caught_spec sorted effect) (fun ended => ?_) fun stop => bot_le
      obtain ⟨pointers, ended⟩ := ended
      refine .exists_pre fun is => .exists_pre fun after => .exists_pre fun becomes => ?_
      subst is
      obtain ⟨rfl, rfl⟩ := And.intro becomes.values becomes.pointers
      refine .bind (ih becomes.sorted played) (fun last => .pure ?_) fun stop => bot_le
      obtain ⟨last, outcomes⟩ := last
      refine iSup_le fun is => ?_
      subst is
      refine (leaves_trans becomes
        fun kept : ∀ other ∈ command :: rest, other.Keeps => ⟨kept command List.mem_cons_self,
          fun other member => kept other (List.mem_cons_of_mem _ member)⟩).trans ?_
      exact le_iSup_of_le (f := fun _ : ended :: outcomes = ended :: outcomes =>
        Leaves _ roots final last) rfl le_rfl

/-- What a program leaves of a memory that was its chunks. -/
theorem execute_from (allocator : Allocator Cell) (roots : Roots) {commands : List Command}
    {objects : Objects} {outcomes : List Outcome} {heap : Heap Cell}
    (sorted : OrderedMap.Sorted roots) (owns : roots.Own heap)
    (plays : play blanks commands roots.values = some (objects, outcomes)) :
    ∃ (after : Roots) (final : Heap Cell),
      (execute allocator blanks commands roots.pointers).exec heap =
        (.ok (after.pointers, outcomes), final) ∧ after.Own final ∧
      Becomes (∀ command ∈ commands, command.Keeps) roots objects after.pointers after := by
  have ended := (execute_spec allocator commands sorted plays).whole owns
  cases ran : (execute allocator blanks commands roots.pointers).exec heap with
  | mk outcome final =>
    rw [ran] at ended
    cases outcome with
    | error stop => exact ended.elim
    | ok last =>
      obtain ⟨pointers, log⟩ := last
      obtain ⟨rfl, leaves⟩ := iSup_holds.mp ended
      obtain ⟨after, leaves⟩ := iSup_holds.mp leaves
      obtain ⟨becomes, owned⟩ := iSup_holds.mp leaves
      obtain rfl := becomes.pointers
      exact ⟨after, final, rfl, owned, becomes⟩

end Runs

end Ztd.Filedat
