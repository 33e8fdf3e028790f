import Ztd.Options.Refinement

/-! The letters of one token, where reading them ends, and where it does not. -/

namespace Ztd.Options
open Ztd.Lib

section Letters
variable (set : OptionSet) (behavior : ProcessArguments)

/-- The letters of one token, read from an index on up to the first argument. -/
inductive ReadsLetters (token : Text) : UInt32 → Cluster → Prop where
  | done (ends : token[i.toNat]? = none) : ReadsLetters token i {}
  | flag (letter : token[i.toNat]? = some c) (found : set.findChar c = some popt)
      (bare : (set.deref popt).takesArgument = false)
      (rest : ReadsLetters token (i + 1) cluster) :
      ReadsLetters token i { cluster with activations := (popt, none) :: cluster.activations }
  | unknown (letter : token[i.toNat]? = some c) (missing : set.findChar c = none)
      (ignored : behavior.ignoreUnknown = true) (rest : ReadsLetters token (i + 1) cluster) :
      ReadsLetters token i { cluster with ropt := c :: cluster.ropt }
  | attached (letter : token[i.toNat]? = some c) (found : set.findChar c = some popt)
      (takes : (set.deref popt).takesArgument = true) (text : (i + 1).toNat < token.length) :
      ReadsLetters token i { activations := [(popt, some (attachedAt token (i + 1)))] }
  | detached (letter : token[i.toNat]? = some c) (found : set.findChar c = some popt)
      (takes : (set.deref popt).takesArgument = true) (ends : token.length ≤ (i + 1).toNat)
      (argument : Text) :
      ReadsLetters token i { activations := [(popt, some argument)], next := some argument }

/-- A letter that the loop goes on behind. -/
def PassedOver (c : Char) : Prop :=
  match set.findChar c with
  | none => behavior.ignoreUnknown = true
  | some popt => (set.deref popt).takesArgument = false

end Letters

variable {set : OptionSet} {behavior : ProcessArguments}

theorem scanLetters_reads {token : Text} {others : List Text} {fuel : Nat} {i : UInt32}
    {cluster : Cluster} (scanned : scanLetters set behavior token others fuel i = (cluster, none)) :
    ReadsLetters set behavior token i cluster ∧
      (cluster.next = none ∨ ∃ next rest, others = next :: rest ∧ cluster.next = some next) := by
  induction fuel generalizing i cluster with
  | zero => simp [scanLetters] at scanned
  | succ fuel ih =>
    rw [scanLetters] at scanned
    cases letter : token[i.toNat]? with
    | none =>
      simp only [letter, Prod.mk.injEq, and_true] at scanned
      subst scanned
      exact ⟨.done letter, .inl rfl⟩
    | some c =>
      cases found : set.findChar c with
      | none =>
        cases ignored : behavior.ignoreUnknown with
        | false => simp [letter, found, ignored] at scanned
        | true =>
          cases later : scanLetters set behavior token others fuel (i + 1) with
          | mk inner stop =>
            simp only [letter, found, ignored, later, Bool.not_true, Bool.false_eq_true,
              ↓reduceIte, Prod.mk.injEq] at scanned
            obtain ⟨rfl, rfl⟩ := scanned
            obtain ⟨reads, taken⟩ := ih later
            exact ⟨.unknown letter found ignored reads, taken⟩
      | some popt =>
        cases taking : (set.deref popt).takesArgument with
        | false =>
          cases later : scanLetters set behavior token others fuel (i + 1) with
          | mk inner stop =>
            simp only [letter, found, taking, later, Bool.false_eq_true, ↓reduceIte,
              Prod.mk.injEq] at scanned
            obtain ⟨rfl, rfl⟩ := scanned
            obtain ⟨reads, taken⟩ := ih later
            exact ⟨.flag letter found taking reads, taken⟩
        | true =>
          simp only [letter, found, taking, ↓reduceIte] at scanned
          by_cases text : (i + 1).toNat < token.length
          · simp only [if_pos text, Prod.mk.injEq, and_true] at scanned
            subst scanned
            exact ⟨.attached letter found taking text, .inl rfl⟩
          · rw [if_neg text] at scanned
            cases others with
            | nil => simp at scanned
            | cons next later =>
              simp only [Prod.mk.injEq, and_true] at scanned
              subst scanned
              exact ⟨.detached letter found taking (Nat.not_lt.mp text) next,
                .inr ⟨next, later, rfl, rfl⟩⟩

/-- Reading that does not come to an end of its own has thrown, or has passed over
a letter for every step it had. -/
theorem scanLetters_stops {token : Text} {others : List Text} {fuel : Nat} {i : UInt32}
    {cluster : Cluster} {stop : Stop OptionError}
    (scanned : scanLetters set behavior token others fuel i = (cluster, some stop)) :
    (∃ error, stop = .thrown error) ∨ stop = .diverged ∧ ∀ k < fuel, ∃ c,
      token[(i.toNat + k) % 2 ^ 32]? = some c ∧ PassedOver set behavior c := by
  induction fuel generalizing i cluster with
  | zero =>
    simp only [scanLetters, Prod.mk.injEq, Option.some.injEq] at scanned
    exact .inr ⟨scanned.2.symm, fun k below => absurd below (Nat.not_lt_zero k)⟩
  | succ fuel ih =>
    rw [scanLetters] at scanned
    cases letter : token[i.toNat]? with
    | none => simp [letter] at scanned
    | some c =>
      have here : token[(i.toNat + 0) % 2 ^ 32]? = some c := by
        rw [Nat.add_zero, Nat.mod_eq_of_lt i.toNat_lt, letter]
      have behind {inner : Cluster} (passed : PassedOver set behavior c)
          (later : scanLetters set behavior token others fuel (i + 1) = (inner, some stop)) :
          (∃ error, stop = .thrown error) ∨ stop = .diverged ∧ ∀ k < fuel + 1, ∃ c,
            token[(i.toNat + k) % 2 ^ 32]? = some c ∧ PassedOver set behavior c := by
        rcases ih later with thrown | ⟨diverged, all⟩
        · exact .inl thrown
        · refine .inr ⟨diverged, fun k below => ?_⟩
          cases k with
          | zero => exact ⟨c, here, passed⟩
          | succ k =>
            have place : ((i + 1).toNat + k) % 2 ^ 32 = (i.toNat + (k + 1)) % 2 ^ 32 := by
              rw [UInt32.toNat_add, UInt32.toNat_one]
              omega
            exact place ▸ all k (Nat.lt_of_succ_lt_succ below)
      cases found : set.findChar c with
      | none =>
        cases ignored : behavior.ignoreUnknown with
        | false =>
          simp only [letter, found, ignored, Bool.not_false, ↓reduceIte, Prod.mk.injEq,
            Option.some.injEq] at scanned
          exact .inl ⟨_, scanned.2.symm⟩
        | true =>
          cases later : scanLetters set behavior token others fuel (i + 1) with
          | mk inner stopped =>
            simp only [letter, found, ignored, later, Bool.not_true, Bool.false_eq_true,
              ↓reduceIte, Prod.mk.injEq] at scanned
            exact behind (by simp [PassedOver, found, ignored]) (scanned.2 ▸ later)
      | some popt =>
        cases taking : (set.deref popt).takesArgument with
        | false =>
          cases later : scanLetters set behavior token others fuel (i + 1) with
          | mk inner stopped =>
            simp only [letter, found, taking, later, Bool.false_eq_true, ↓reduceIte,
              Prod.mk.injEq] at scanned
            exact behind (by simp [PassedOver, found, taking]) (scanned.2 ▸ later)
        | true =>
          simp only [letter, found, taking, ↓reduceIte] at scanned
          split at scanned
          · simp at scanned
          · cases others with
            | nil =>
              simp only [Prod.mk.injEq, Option.some.injEq] at scanned
              exact .inl ⟨_, scanned.2.symm⟩
            | cons next later => simp at scanned

/-- With a step for each character, only an endless token uses up all of them. -/
theorem scanLetters_endless {token : Text} {others : List Text} {cluster : Cluster}
    (scanned : scanLetters set behavior token others (token.length + 1) 1 =
      (cluster, some .diverged)) :
    2 ^ 32 ≤ token.length ∧ ∀ c ∈ token.take (2 ^ 32), PassedOver set behavior c := by
  rcases scanLetters_stops scanned with ⟨_, thrown⟩ | ⟨-, passed⟩
  · cases thrown
  · rw [UInt32.toNat_one] at passed
    have long : 2 ^ 32 ≤ token.length := by
      obtain ⟨_, letter, _⟩ := passed (token.length - 1) (by omega)
      have inside := (List.getElem?_eq_some_iff.mp letter).1
      omega
    refine ⟨long, fun c member => ?_⟩
    obtain ⟨place, inside, is⟩ := List.mem_iff_getElem.mp member
    rw [List.length_take] at inside
    obtain ⟨c', letter, passed⟩ := passed ((place + 2 ^ 32 - 1) % 2 ^ 32) (by omega)
    have there : (1 + (place + 2 ^ 32 - 1) % 2 ^ 32) % 2 ^ 32 = place := by omega
    rw [there, List.getElem?_eq_getElem (by omega)] at letter
    rw [List.getElem_take] at is
    obtain rfl : c' = c := by rw [← is, ← Option.some.inj letter]
    exact passed

theorem scanLetters_passes {token : Text} (long : 2 ^ 32 ≤ token.length)
    (passed : ∀ c ∈ token.take (2 ^ 32), PassedOver set behavior c) (others : List Text)
    (fuel : Nat) (i : UInt32) :
    (scanLetters set behavior token others fuel i).2 = some .diverged := by
  induction fuel generalizing i with
  | zero => rfl
  | succ fuel ih =>
    have inside : i.toNat < token.length := Nat.lt_of_lt_of_le i.toNat_lt long
    have passed := passed token[i.toNat] (List.mem_take_iff_getElem.mpr
      ⟨i.toNat, Nat.lt_min.mpr ⟨i.toNat_lt, inside⟩, rfl⟩)
    have letter := List.getElem?_eq_getElem inside
    generalize token[i.toNat] = c at passed letter
    cases found : set.findChar c with
    | none =>
      have ignored : behavior.ignoreUnknown = true := by simpa [PassedOver, found] using passed
      simp [scanLetters, letter, found, ignored, ih]
    | some popt =>
      have bare : (set.deref popt).takesArgument = false := by
        simpa [PassedOver, found] using passed
      simp [scanLetters, letter, found, bare, ih]

/-- More steps change nothing where reading came to an end. -/
theorem scanLetters_mono {token : Text} {others : List Text} {fuel more : Nat} {i : UInt32}
    (ends : (scanLetters set behavior token others fuel i).2 ≠ some .diverged)
    (enough : fuel ≤ more) :
    scanLetters set behavior token others more i =
      scanLetters set behavior token others fuel i := by
  induction fuel generalizing i more with
  | zero => exact absurd rfl ends
  | succ fuel ih =>
    obtain ⟨more, rfl⟩ : ∃ least, more = least + 1 := ⟨more - 1, by omega⟩
    have later : fuel ≤ more := Nat.le_of_succ_le_succ enough
    cases letter : token[i.toNat]? with
    | none => simp only [scanLetters, letter]
    | some c =>
      cases found : set.findChar c with
      | none =>
        cases ignored : behavior.ignoreUnknown with
        | false => simp [scanLetters, letter, found, ignored]
        | true =>
          have ends : (scanLetters set behavior token others fuel (i + 1)).2 ≠ some .diverged := by
            simpa [scanLetters, letter, found, ignored] using ends
          simp [scanLetters, letter, found, ignored, ih ends later]
      | some popt =>
        cases taking : (set.deref popt).takesArgument with
        | false =>
          have ends : (scanLetters set behavior token others fuel (i + 1)).2 ≠ some .diverged := by
            simpa [scanLetters, letter, found, taking] using ends
          simp [scanLetters, letter, found, taking, ih ends later]
        | true => simp only [scanLetters, letter, found, taking, ↓reduceIte]

private theorem scanLetters_fueled {token : Text} {cluster : Cluster} {i : UInt32}
    (reads : ReadsLetters set behavior token i cluster) (rest : List Text) :
    ∃ fuel, scanLetters set behavior token (cluster.next.toList ++ rest) fuel i =
      (cluster, none) := by
  induction reads with
  | done ends => exact ⟨1, by simp [scanLetters, ends]⟩
  | flag letter found bare _ ih =>
    obtain ⟨fuel, ih⟩ := ih
    exact ⟨fuel + 1, by simp [scanLetters, letter, found, bare, ih]⟩
  | unknown letter missing ignored _ ih =>
    obtain ⟨fuel, ih⟩ := ih
    exact ⟨fuel + 1, by simp [scanLetters, letter, missing, ignored, ih]⟩
  | attached letter found takes text =>
    exact ⟨1, by simp only [scanLetters, letter, found, takes, text, ↓reduceIte]⟩
  | detached letter found takes ends argument =>
    refine ⟨1, ?_⟩
    simp only [scanLetters, letter, found, takes, Nat.not_lt.mpr ends, ↓reduceIte,
      Option.toList_some, List.cons_append]

/-- Letters that can be read are read, in front of the token they may take. -/
theorem scanLetters_of_reads {token : Text} {cluster : Cluster}
    (reads : ReadsLetters set behavior token 1 cluster) (rest : List Text) :
    scanLetters set behavior token (cluster.next.toList ++ rest) (token.length + 1) 1 =
      (cluster, none) := by
  obtain ⟨fuel, scanned⟩ := scanLetters_fueled reads rest
  have ends : (scanLetters set behavior token (cluster.next.toList ++ rest)
      (token.length + 1) 1).2 ≠ some .diverged := by
    intro diverged
    obtain ⟨long, passed⟩ := scanLetters_endless (Prod.ext rfl diverged)
    have never := scanLetters_passes long passed (cluster.next.toList ++ rest) fuel 1
    simp [scanned] at never
  rw [← scanLetters_mono ends (Nat.le_max_left _ fuel),
    scanLetters_mono (by simp [scanned]) (Nat.le_max_right _ fuel), scanned]

end Ztd.Options
