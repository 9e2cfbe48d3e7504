import Provision.Proofs.Nesting

/-! What stands where after a merge.

`find?_mergeFields` says what a merged map holds under one key. From it, by going down a path,
comes `at?_mergeFields`: what is found at the path hangs on how far the upper map goes along it.
Where the upper map has a value, that value counts, and of two objects both give their keys;
where it ends in an object without the next key, everything is as in the lower map; and where
it ends in anything else, nothing is left. -/
namespace Provision.Json

/-! ### One key -/

theorem mergeFields_cons (base : Fields) (key : String) (value : Json)
    (rest : List (String × Json)) :
    mergeFields base ((key, value) :: rest) =
      mergeFields (base.insert key (match Dictionary.find? key base with
        | some lower => merge lower value
        | none => value)) rest :=
  (mergeFields.eq_def _ _).trans rfl

/-- Merging over anything but an object leaves the upper value. -/
theorem merge_of_not_object {lower : Json} (h : lower.isObject = false) (upper : Json) :
    merge lower upper = upper := by
  rcases merge_cases lower upper with he | ⟨base, overrides, rfl, -, -⟩
  · exact he
  · cases h

theorem merge_not_object (lower : Json) {upper : Json} (h : upper.isObject = false) :
    merge lower upper = upper := by
  rcases merge_cases lower upper with he | ⟨base, overrides, -, rfl, -⟩
  · exact he
  · cases h

/-- A key of the upper map is merged with what the lower one has, and any other key stays. -/
theorem find?_mergeFields (base : Fields) {overrides : List (String × Json)}
    (distinct : (overrides.map Prod.fst).Nodup) (key : String) :
    Dictionary.find? key (mergeFields base overrides) =
      match Dictionary.find? key overrides with
      | some upper => some (merge ((Dictionary.find? key base).getD .null) upper)
      | none => Dictionary.find? key base := by
  induction overrides generalizing base with
  | nil =>
    rw [mergeFields]
    rfl
  | cons member rest ih =>
    obtain ⟨name, value⟩ := member
    obtain ⟨hname, hrest⟩ := List.nodup_cons.mp distinct
    rw [mergeFields_cons, ih _ hrest, Dictionary.find?_insert, Dictionary.find?_cons]
    by_cases h : name = key
    · subst h
      have habsent : Dictionary.find? name rest = none := by
        cases hf : Dictionary.find? name rest with
        | none => rfl
        | some other =>
          exact absurd (List.mem_map.mpr ⟨_, Dictionary.mem_of_find? hf, rfl⟩) hname
      rw [habsent, if_pos rfl, if_pos rfl]
      cases Dictionary.find? name base with
      | none => exact congrArg some (merge_of_not_object rfl value).symm
      | some lower => rfl
    · rw [if_neg h, if_neg h]

/-! ### Along a path -/

theorem at?_cons (value : Json) (key : String) (path : List String) :
    value.at? (key :: path) = (value.at? [key]).bind (·.at? path) := by
  cases value with
  | object members => cases h : Dictionary.find? key members <;> simp [at?, h]
  | _ => rfl

theorem at?_key (members : Fields) (key : String) :
    (Json.object members).at? [key] = Dictionary.find? key members := by
  cases h : Dictionary.find? key members <;> simp [at?, h]

/-- The longest front of a path at which a value has something. The value itself is what it has
at the empty path. -/
structure Deepest (value : Json) (path front : List String) : Prop where
  front_of : front <+: path
  found : (value.at? front).isSome
  longest : ∀ other, other <+: path → (value.at? other).isSome → other.length ≤ front.length

theorem Deepest.nil {value : Json} {key : String} (h : value.at? [key] = none)
    (path : List String) : Deepest value (key :: path) [] where
  front_of := List.nil_prefix
  found := rfl
  longest := by
    intro other hother hfound
    cases other with
    | nil => exact Nat.le_refl _
    | cons name other =>
      obtain ⟨rfl, -⟩ := List.cons_prefix_cons.mp hother
      rw [at?_cons, h] at hfound
      cases hfound

theorem Deepest.cons {value inner : Json} {key : String} {path front : List String}
    (h : value.at? [key] = some inner) (hdeepest : Deepest inner path front) :
    Deepest value (key :: path) (key :: front) where
  front_of := List.cons_prefix_cons.mpr ⟨rfl, hdeepest.front_of⟩
  found := by
    rw [at?_cons, h]
    exact hdeepest.found
  longest := by
    intro other hother hfound
    cases other with
    | nil => exact Nat.zero_le _
    | cons name other =>
      obtain ⟨rfl, hrest⟩ := List.cons_prefix_cons.mp hother
      rw [at?_cons, h] at hfound
      exact Nat.succ_le_succ (hdeepest.longest other hrest hfound)

/-- The keys of an object, and none of anything else. -/
def keys : Json → List String
  | .object members => members.map Prod.fst
  | _ => []

theorem mem_keys_iff {value : Json} {key : String} :
    key ∈ value.keys ↔ (value.at? [key]).isSome := by
  cases value with
  | object members =>
    rw [at?_key]
    induction members with
    | nil => constructor <;> intro h <;> cases h
    | cons first rest ih =>
      obtain ⟨name, value⟩ := first
      have hkeys : keys (.object ((name, value) :: rest)) = name :: keys (.object rest) := rfl
      rw [hkeys, List.mem_cons, ih, Dictionary.find?_cons]
      by_cases h : name = key
      · simp [h]
      · simp [h, Ne.symm h]
  | _ => constructor <;> intro h <;> cases h

variable {depth : Nat} {upper : Json} {overrides : Fields}

/-- One step down in two values merged, the upper one of which is an object. -/
theorem at?_merge_key (h : Fits depth (.object overrides)) (lower : Json) (key : String) :
    (merge lower (.object overrides)).at? [key] =
      match Dictionary.find? key overrides with
      | some upper => some (merge ((lower.at? [key]).getD .null) upper)
      | none => lower.at? [key] := by
  have distinct : (overrides.map Prod.fst).Nodup := by
    cases h with
    | object ascending _ => exact ascending.nodup
  cases lower with
  | object base => rw [merge, at?_key, at?_key, find?_mergeFields base distinct]
  | _ =>
    rw [merge_of_not_object rfl, at?_key]
    cases Dictionary.find? key overrides with
    | none => rfl
    | some upper => exact congrArg some (merge_of_not_object rfl upper).symm

/-- Two values merged have an object at the top if the upper one has. -/
theorem exists_merge_object (lower : Json) (overrides : Fields) :
    ∃ result, merge lower (.object overrides) = .object result := by
  rcases merge_cases lower (.object overrides) with he | ⟨base, _, -, -, he⟩
  · exact ⟨_, he⟩
  · exact ⟨_, he⟩

/-- What stands at a path after a merge, when the upper value goes along the path as far as
`front`. -/
structure MergedAt (lower upper merged : Json) (path front : List String) : Prop where
  deepest : Deepest upper path front
  /-- The upper value has something other than an object there. -/
  plain : front = path → ∀ value, upper.at? path = some value → value.isObject = false →
    merged.at? path = some value
  /-- The upper value has an object there. -/
  object : front = path → ∀ members, upper.at? path = some (.object members) →
    ∃ result, merged.at? path = some (.object result) ∧ ∀ key, key ∈ keys (.object result) ↔
      key ∈ keys (.object members) ∨
        ∃ below, lower.at? path = some (.object below) ∧ key ∈ keys (.object below)
  /-- The upper value ends before in an object. -/
  silent : front ≠ path → ∀ members, upper.at? front = some (.object members) →
    merged.at? path = lower.at? path
  /-- The upper value ends before in something else. -/
  blocked : front ≠ path → ∀ value, upper.at? front = some value → value.isObject = false →
    merged.at? path = none

theorem mergedAt_nil (h : Fits depth upper) (lower : Json) :
    MergedAt lower upper (merge lower upper) [] [] where
  deepest := ⟨List.nil_prefix, rfl, fun other hother _ => by
    rw [List.prefix_nil.mp hother]⟩
  plain := by
    rintro - value ⟨⟩ hplain
    exact congrArg some (merge_not_object lower hplain)
  object := by
    rintro - members ⟨⟩
    obtain ⟨result, hresult⟩ := exists_merge_object lower members
    refine ⟨result, congrArg some hresult, fun key => ?_⟩
    have hbelow : (∃ below, lower.at? [] = some (.object below) ∧ key ∈ keys (.object below)) ↔
        key ∈ lower.keys := by
      cases lower with
      | object below => simp [at?]
      | _ => simp [at?, keys]
    rw [hbelow, ← hresult, mem_keys_iff, at?_merge_key h, mem_keys_iff, mem_keys_iff, at?_key]
    cases Dictionary.find? key members <;> simp
  silent := fun hne => absurd rfl hne
  blocked := fun hne => absurd rfl hne

/-- Nothing of the upper value lies along the path. -/
theorem mergedAt_absent (h : Fits depth upper) (lower : Json) {key : String}
    (habsent : upper.at? [key] = none) (path : List String) :
    MergedAt lower upper (merge lower upper) (key :: path) [] where
  deepest := .nil habsent path
  plain := fun he => (nomatch he)
  object := fun he => (nomatch he)
  silent := by
    rintro - members ⟨⟩
    rw [at?_key] at habsent
    rw [at?_cons, at?_merge_key h, habsent, ← at?_cons]
  blocked := by
    rintro - value ⟨⟩ hplain
    rw [merge_not_object lower hplain, at?_cons, habsent]
    rfl

/-- The first step of the path leads to a value in the upper object. What the lower one has there
counts as null if there is nothing, since both leave no trace in a merge. -/
theorem mergedAt_cons (h : Fits depth (.object overrides)) (lower : Json) {key : String}
    (hupper : Dictionary.find? key overrides = some upper) {path front : List String}
    (hinner : MergedAt ((lower.at? [key]).getD .null) upper
      (merge ((lower.at? [key]).getD .null) upper) path front) :
    MergedAt lower (.object overrides) (merge lower (.object overrides)) (key :: path)
      (key :: front) := by
  have hkey : (Json.object overrides).at? [key] = some upper := by
    rw [at?_key, hupper]
  have hmerged : ∀ path, (merge lower (.object overrides)).at? (key :: path) =
      (merge ((lower.at? [key]).getD .null) upper).at? path := by
    intro path
    rw [at?_cons, at?_merge_key h, hupper]
    rfl
  have hover : ∀ path, (Json.object overrides).at? (key :: path) = upper.at? path := by
    intro path
    rw [at?_cons, hkey]
    rfl
  have hbelow : ∀ below, lower.at? (key :: path) = some (.object below) ↔
      ((lower.at? [key]).getD .null).at? path = some (.object below) := by
    intro below
    rw [at?_cons]
    cases lower.at? [key] with
    | some value => rfl
    | none => cases path <;> simp [at?]
  refine ⟨.cons hkey hinner.deepest, ?_, ?_, ?_, ?_⟩
  · intro he value hvalue hplain
    rw [hover] at hvalue
    rw [hmerged]
    exact hinner.plain (List.cons.inj he).2 value hvalue hplain
  · intro he members hmembers
    rw [hover] at hmembers
    simp only [hmerged, hbelow]
    exact hinner.object (List.cons.inj he).2 members hmembers
  · intro hne members hmembers
    rw [hover] at hmembers
    have hinnerNe : front ≠ path := fun he => hne (congrArg _ he)
    rw [hmerged, hinner.silent hinnerNe members hmembers, at?_cons lower key path]
    cases lower.at? [key] with
    | some value => rfl
    | none =>
      cases path with
      | nil => exact absurd (List.prefix_nil.mp hinner.deepest.front_of) hinnerNe
      | cons next path => rfl
  · intro hne value hvalue hplain
    rw [hover] at hvalue
    rw [hmerged]
    exact hinner.blocked (fun he => hne (congrArg _ he)) value hvalue hplain

theorem exists_mergedAt (path : List String) {depth : Nat} {upper : Json} (h : Fits depth upper)
    (lower : Json) : ∃ front, MergedAt lower upper (merge lower upper) path front := by
  induction path generalizing depth upper lower with
  | nil => exact ⟨[], mergedAt_nil h lower⟩
  | cons key path ih =>
    cases hupper : upper.at? [key] with
    | none => exact ⟨[], mergedAt_absent h lower hupper path⟩
    | some inner =>
      cases upper with
      | object overrides =>
        rw [at?_key] at hupper
        have hinner : ∃ depth, Fits depth inner := by
          cases h with
          | object _ values => exact ⟨_, values _ (Dictionary.mem_of_find? hupper)⟩
        obtain ⟨_, hfits⟩ := hinner
        obtain ⟨front, hfront⟩ := ih hfits ((lower.at? [key]).getD .null)
        exact ⟨key :: front, mergedAt_cons h lower hupper hfront⟩
      | _ => cases hupper

/-- **What stands at a path after two maps were merged.** -/
theorem at?_mergeFields (h : Fits depth (.object overrides)) (base : Fields)
    (path : List String) :
    ∃ front, MergedAt (.object base) (.object overrides) (.object (mergeFields base overrides))
      path front := by
  have hmerge : merge (.object base) (.object overrides) =
      .object (mergeFields base overrides) := by
    rw [merge]
  rw [← hmerge]
  exact exists_mergedAt path h (.object base)

/-- An override that says nothing of `policy` and has a number in the place of an object. -/
theorem at?_mergeFields_istanbul :
    Fits 2 (.object [("clique", .natural 5), ("istanbul", .object [("epoch", .natural 9)])]) ∧
      ∃ front, MergedAt
        (.object [("istanbul", .object [("epoch", .natural 1), ("policy", .natural 2)])])
        (.object [("clique", .natural 5), ("istanbul", .object [("epoch", .natural 9)])])
        (.object [("clique", .natural 5),
          ("istanbul", .object [("epoch", .natural 9), ("policy", .natural 2)])])
        ["istanbul", "policy"] front := by
  have hfits : Fits 2 (.object [("clique", .natural 5),
      ("istanbul", .object [("epoch", .natural 9)])]) := by
    exact fits_of_value (tree (.object [("clique", .natural 5),
      ("istanbul", .object [("epoch", .natural 9)])])) rfl
  exact ⟨hfits, at?_mergeFields hfits
    [("istanbul", .object [("epoch", .natural 1), ("policy", .natural 2)])]
    ["istanbul", "policy"]⟩

end Provision.Json
