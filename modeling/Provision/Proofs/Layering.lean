import Mathlib.Logic.Function.Iterate
import Provision.Proofs.Completion

/-! Overrides in layers.

Two overrides can be merged over a map one after the other, or they can be merged first and then
go over the map at once. Both ways come to the same unless the first override hides something: it
has a plain value where the map and the second override both have an object, `HiddenAt`. One after
the other, nothing of the map is left there when the second override comes; merged first, the
second override goes over the map's own object. `groups_iff_covers` says exactly when the two
differ, for values of any shape. An override hides nothing from itself, so repeating it changes
nothing; `mergeFields_layers` puts this beside the law of grouping and the laws of the empty
map. -/
namespace Provision.Json

/-- Of three layers the lower and the upper one have an object at the path, and the middle one has
something else there. -/
structure HiddenAt (lower middle upper : Json) (path : List String) (base overrides : Fields) :
    Prop where
  lower : lower.at? path = some (.object base)
  middle : ∃ value, middle.at? path = some value ∧ value.isObject = false
  upper : upper.at? path = some (.object overrides)

/-! ### Where a layer is hidden -/

theorem object_or_not (value : Json) :
    (∃ members, value = .object members) ∨ value.isObject = false := by
  cases value with
  | object members => exact .inl ⟨members, rfl⟩
  | _ => exact .inr rfl

theorem at?_of_not_object {value found : Json} (h : value.isObject = false) {path : List String}
    (hfound : value.at? path = some found) : path = [] ∧ found = value := by
  cases path with
  | nil => exact ⟨rfl, (Option.some.inj hfound).symm⟩
  | cons key path =>
    cases value with
    | object members => cases h
    | _ => cases hfound

/-- Only an object leads to an object. -/
theorem isObject_of_at? {value : Json} {path : List String} {members : Fields}
    (h : value.at? path = some (.object members)) : value.isObject = true := by
  rcases object_or_not value with ⟨_, rfl⟩ | hvalue
  · rfl
  · obtain ⟨-, rfl⟩ := at?_of_not_object hvalue h
    rfl

/-- A layer that is no object hides what is below it, at the top and nowhere else. -/
theorem hiddenAt_of_not_object {lower middle upper : Json} (h : middle.isObject = false)
    {path : List String} {base overrides : Fields} :
    HiddenAt lower middle upper path base overrides ↔
      path = [] ∧ lower = .object base ∧ upper = .object overrides := by
  constructor
  · rintro ⟨hlower, ⟨value, hmiddle, -⟩, hupper⟩
    obtain ⟨rfl, -⟩ := at?_of_not_object h hmiddle
    exact ⟨rfl, Option.some.inj hlower, Option.some.inj hupper⟩
  · rintro ⟨rfl, rfl, rfl⟩
    exact ⟨rfl, ⟨middle, rfl, h⟩, rfl⟩

/-- A layer that is an object hides what its members hide. -/
theorem hiddenAt_object {lower middle upper base overrides : Fields} {path : List String} :
    HiddenAt (.object lower) (.object middle) (.object upper) path base overrides ↔
      ∃ key rest below between above, path = key :: rest ∧
        Dictionary.find? key lower = some below ∧ Dictionary.find? key middle = some between ∧
        Dictionary.find? key upper = some above ∧
        HiddenAt below between above rest base overrides := by
  have hstep : ∀ (members : Fields) (key : String) (rest : List String),
      (Json.object members).at? (key :: rest) = (Dictionary.find? key members).bind (·.at? rest) :=
    fun members key rest => by rw [at?_cons, at?_key]
  constructor
  · rintro ⟨hlower, ⟨value, hmiddle, hvalue⟩, hupper⟩
    cases path with
    | nil =>
      cases hmiddle
      cases hvalue
    | cons key rest =>
      rw [hstep, Option.bind_eq_some_iff] at hlower hmiddle hupper
      obtain ⟨below, hbelow, hlower⟩ := hlower
      obtain ⟨between, hbetween, hmiddle⟩ := hmiddle
      obtain ⟨above, habove, hupper⟩ := hupper
      exact ⟨key, rest, below, between, above, rfl, hbelow, hbetween, habove,
        hlower, ⟨value, hmiddle, hvalue⟩, hupper⟩
  · rintro ⟨key, rest, below, between, above, rfl, hbelow, hbetween, habove,
      hlower, ⟨value, hmiddle, hvalue⟩, hupper⟩
    refine ⟨?_, ⟨value, ?_, hvalue⟩, ?_⟩
    · rw [hstep, hbelow]
      exact hlower
    · rw [hstep, hbetween]
      exact hmiddle
    · rw [hstep, habove]
      exact hupper

/-- A layer hides nothing from itself. -/
theorem not_hiddenAt_self (lower value : Json) (path : List String) (base overrides : Fields) :
    ¬ HiddenAt lower value value path base overrides := by
  rintro ⟨-, ⟨found, hfound, hplain⟩, hupper⟩
  obtain rfl : found = .object overrides := Option.some.inj (hfound.symm.trans hupper)
  cases hplain

/-! ### Three layers -/

theorem Fields.Fit.merged {depth : Nat} {lower upper : Fields} (hlower : Fields.Fit depth lower)
    (hupper : Fields.Fit depth upper) : Fields.Fit depth (Json.mergeFields lower upper) :=
  hlower.mergeFields fun member hm =>
    ⟨hupper.values member hm, (hupper.values member hm).merge⟩

/-- Three values can be grouped either way. -/
def Groups (lower middle upper : Json) : Prop :=
  merge (merge lower middle) upper = merge lower (merge middle upper)

/-- Where the middle layer hides an object of the lower one, the upper one leaves nothing of it. -/
def Covers (lower middle upper : Json) : Prop :=
  ∀ path base overrides, HiddenAt lower middle upper path base overrides →
    mergeFields base overrides = overrides

/-- Three maps can be grouped either way exactly if the values can that all three have under one
key. Where one of the maps lacks the key, there are only two values to merge. -/
theorem groups_object_iff {depth : Nat} {lower middle upper : Fields}
    (hlower : lower.Ascending) (hmiddle : Fields.Fit depth middle)
    (hupper : Fields.Fit depth upper) :
    Groups (.object lower) (.object middle) (.object upper) ↔
      ∀ key below between above, Dictionary.find? key lower = some below →
        Dictionary.find? key middle = some between → Dictionary.find? key upper = some above →
        Groups below between above := by
  have hlast := find?_mergeFields (mergeFields lower middle) hupper.ascending.nodup
  have hfirst := find?_mergeFields lower (hmiddle.merged hupper).ascending.nodup
  have hbelow := find?_mergeFields lower hmiddle.ascending.nodup
  have habove := find?_mergeFields middle hupper.ascending.nodup
  have hnull : ∀ value, merge .null value = value := merge_of_not_object rfl
  rw [Groups, merge, merge, merge, merge, Json.object.injEq]
  constructor
  · intro h key below between above hl hm hu
    have hkey := congrArg (Dictionary.find? key) h
    rw [hlast, hfirst, hbelow, habove, hl, hm, hu] at hkey
    exact Option.some.inj hkey
  · intro h
    refine (ascending_mergeFields (ascending_mergeFields hlower _) _).ext
      (ascending_mergeFields hlower _) fun key => ?_
    rw [hlast, hfirst, hbelow, habove]
    cases hu : Dictionary.find? key upper with
    | none => rfl
    | some above =>
      cases hm : Dictionary.find? key middle with
      | none => simp only [Option.getD_none, hnull]
      | some between =>
        cases hl : Dictionary.find? key lower with
        | none => simp only [Option.getD_none, Option.getD_some, hnull]
        | some below => exact congrArg some (h key below between above hl hm hu)

/-- What three maps hide is hidden under some key. -/
theorem covers_object_iff {lower middle upper : Fields} :
    Covers (.object lower) (.object middle) (.object upper) ↔
      ∀ key below between above, Dictionary.find? key lower = some below →
        Dictionary.find? key middle = some between → Dictionary.find? key upper = some above →
        Covers below between above := by
  constructor
  · intro h key below between above hl hm hu rest base overrides hidden
    exact h (key :: rest) base overrides
      (hiddenAt_object.mpr ⟨key, rest, below, between, above, rfl, hl, hm, hu, hidden⟩)
  · intro h path base overrides hidden
    obtain ⟨key, rest, below, between, above, rfl, hl, hm, hu, hidden⟩ :=
      hiddenAt_object.mp hidden
    exact h key below between above hl hm hu rest base overrides hidden

theorem groups_iff_of_plain_upper (lower middle : Json) {upper : Json}
    (h : upper.isObject = false) : Groups lower middle upper ↔ Covers lower middle upper := by
  refine iff_of_true ?_ fun path base overrides hidden => ?_
  · rw [Groups, merge_not_object _ h, merge_not_object _ h, merge_not_object _ h]
  · rw [isObject_of_at? hidden.upper] at h
    cases h

theorem groups_iff_of_plain_lower {lower : Json} (h : lower.isObject = false)
    (middle upper : Json) : Groups lower middle upper ↔ Covers lower middle upper := by
  refine iff_of_true ?_ fun path base overrides hidden => ?_
  · rw [Groups, merge_of_not_object h, merge_of_not_object h]
  · rw [isObject_of_at? hidden.lower] at h
    cases h

/-- Of a middle layer that is no object nothing is left under an object. -/
theorem groups_iff_of_plain_middle (lower : Json) {middle : Json} (h : middle.isObject = false)
    (upper : Fields) :
    Groups lower middle (.object upper) ↔ Covers lower middle (.object upper) := by
  rw [Groups, Covers, merge_not_object lower h, merge_of_not_object h]
  simp only [hiddenAt_of_not_object h]
  constructor
  · rintro hmerge path base overrides ⟨-, rfl, ⟨⟩⟩
    rw [merge] at hmerge
    exact (Json.object.inj hmerge).symm
  · intro hcovers
    rcases merge_cases lower (.object upper) with he | ⟨base, _, rfl, ⟨⟩, he⟩
    · exact he.symm
    · rw [he, hcovers [] base upper ⟨rfl, rfl, rfl⟩]

/-- The two ways to merge three values come to the same exactly if the upper value leaves nothing
of the lower one wherever the middle one hides it. -/
theorem groups_iff_covers {depth : Nat} {upper : Json} (hupper : Fits depth upper) :
    ∀ lower middle, Fits depth lower → Fits depth middle →
      (Groups lower middle upper ↔ Covers lower middle upper) := by
  -- The upper value is followed down; under each key the two others go along with it.
  induction hupper with
  | @object depth upper ascending values ih =>
    intro lower middle hlower hmiddle
    rcases object_or_not middle with ⟨middle, rfl⟩ | hplain
    · rcases object_or_not lower with ⟨lower, rfl⟩ | hplain
      · have hlower := fits_object_iff.mp hlower
        have hmiddle := fits_object_iff.mp hmiddle
        rw [groups_object_iff hlower.ascending hmiddle ⟨ascending, values⟩, covers_object_iff]
        have hvalues : ∀ key below between above, Dictionary.find? key lower = some below →
            Dictionary.find? key middle = some between →
            Dictionary.find? key upper = some above →
            (Groups below between above ↔ Covers below between above) := by
          intro key below between above hl hm hu
          exact ih _ (Dictionary.mem_of_find? hu) below between
            (hlower.values _ (Dictionary.mem_of_find? hl))
            (hmiddle.values _ (Dictionary.mem_of_find? hm))
        constructor
        · intro h key below between above hl hm hu
          exact (hvalues key below between above hl hm hu).mp (h key below between above hl hm hu)
        · intro h key below between above hl hm hu
          exact (hvalues key below between above hl hm hu).mpr (h key below between above hl hm hu)
      · exact groups_iff_of_plain_lower hplain _ _
    · exact groups_iff_of_plain_middle lower hplain upper
  | null => exact fun lower middle _ _ => groups_iff_of_plain_upper lower middle rfl
  | bool _ => exact fun lower middle _ _ => groups_iff_of_plain_upper lower middle rfl
  | number _ => exact fun lower middle _ _ => groups_iff_of_plain_upper lower middle rfl
  | string _ => exact fun lower middle _ _ => groups_iff_of_plain_upper lower middle rfl
  | array _ _ => exact fun lower middle _ _ => groups_iff_of_plain_upper lower middle rfl

/-! ### The same layer again -/

/-- A value merged over itself is that value. -/
theorem Fits.merge_self {depth : Nat} {value : Json} (h : Fits depth value) :
    Json.merge value value = value := by
  induction h with
  | @object depth members ascending _ ih =>
    rw [Json.merge]
    refine congrArg Json.object ((ascending_mergeFields ascending _).ext ascending fun key => ?_)
    rw [find?_mergeFields members ascending.nodup]
    cases hfound : Dictionary.find? key members with
    | none => rfl
    | some value => exact congrArg some (ih _ (Dictionary.mem_of_find? hfound))
  | null => exact merge_not_object _ rfl
  | bool _ => exact merge_not_object _ rfl
  | number _ => exact merge_not_object _ rfl
  | string _ => exact merge_not_object _ rfl
  | array _ _ => exact merge_not_object _ rfl

/-! ### Layers of a map -/

section Layers

variable {depth : Nat} {base first second : Fields}

theorem mergeFields_nil_left (h : first.Ascending) : mergeFields [] first = first := by
  refine (ascending_mergeFields .nil _).ext h fun key => ?_
  rw [find?_mergeFields [] h.nodup]
  cases Dictionary.find? key first with
  | none => rfl
  | some value => exact congrArg some (merge_of_not_object rfl value)

/-- Two overrides over a map are one exactly if the second one leaves nothing of the objects that
the first one hides. -/
theorem mergeFields_assoc_iff (hbase : Fields.Fit depth base) (hfirst : Fields.Fit depth first)
    (hsecond : Fields.Fit depth second) :
    mergeFields (mergeFields base first) second = mergeFields base (mergeFields first second) ↔
      Covers (.object base) (.object first) (.object second) := by
  rw [← groups_iff_covers hsecond.object _ _ hbase.object hfirst.object, Groups, merge, merge,
    merge, merge, Json.object.injEq]

/-- A section that the first override takes out and the second one puts back empty. One after the
other they leave it empty; merged first they are an empty section, and the lower one stays. -/
example :
    let base := [("istanbul", .object [("epoch", .natural 1)])]
    let first := [("istanbul", .null)]
    let second := [("istanbul", .object [])]
    mergeFields (mergeFields base first) second = second ∧
      mergeFields base (mergeFields first second) = base :=
  ⟨rfl, rfl⟩

/-- An override merged a second time changes nothing. -/
theorem mergeFields_again (hbase : Fields.Fit depth base) (hfirst : Fields.Fit depth first) :
    mergeFields (mergeFields base first) first = mergeFields base first := by
  have hself : mergeFields first first = first := by
    have hmerge := hfirst.object.merge_self
    rw [merge] at hmerge
    exact Json.object.inj hmerge
  have hgroup := (mergeFields_assoc_iff hbase hfirst hfirst).mpr fun path below above hidden =>
    absurd hidden (not_hiddenAt_self _ _ path below above)
  rw [hgroup, hself]

theorem mergeFields_iterate (hbase : Fields.Fit depth base) (hfirst : Fields.Fit depth first)
    (more : Nat) : (mergeFields · first)^[more + 1] base = mergeFields base first := by
  induction more with
  | zero => rfl
  | succ more ih => rw [Function.iterate_succ_apply', ih, mergeFields_again hbase hfirst]

end Layers

/-- **Overrides in layers are one override, unless one of them hides what another one would add
to; an empty layer and a repeated one change nothing.** -/
theorem mergeFields_layers {depth depthFirst depthSecond : Nat} {base first second : Fields}
    (hbase : Fields.Fit depth base) (hfirst : Fields.Fit depthFirst first)
    (hsecond : Fields.Fit depthSecond second) :
    ((∀ path below above,
        ¬ HiddenAt (.object base) (.object first) (.object second) path below above) →
      mergeFields (mergeFields base first) second = mergeFields base (mergeFields first second)) ∧
    mergeFields base [] = base ∧ mergeFields [] base = base ∧
    mergeFields (mergeFields base first) first = mergeFields base first ∧
    ∀ more, (mergeFields · first)^[more + 1] base = mergeFields base first := by
  -- Maps that are nested no deeper than these are nested no deeper than the deepest of the three.
  obtain ⟨most, hdepth, hdepthFirst, hdepthSecond⟩ : ∃ most, depth ≤ most ∧ depthFirst ≤ most ∧
      depthSecond ≤ most := ⟨depth + depthFirst + depthSecond, by omega, by omega, by omega⟩
  have hbase := hbase.mono hdepth
  have hfirst := hfirst.mono hdepthFirst
  have hsecond := hsecond.mono hdepthSecond
  refine ⟨fun hnone => ?_, by rw [mergeFields], mergeFields_nil_left hbase.ascending,
    mergeFields_again hbase hfirst, mergeFields_iterate hbase hfirst⟩
  exact (mergeFields_assoc_iff hbase hfirst hsecond).mpr fun path below above hidden =>
    absurd hidden (hnone path below above)

/-- Three layers of which the second one has a number where the third one has a section, and the
first one nothing. -/
def threeLayers : Fields × Fields × Fields :=
  ([("istanbul", .object [("epoch", .natural 1), ("policy", .natural 2)])],
    [("clique", .natural 5), ("istanbul", .object [("epoch", .natural 9)])],
    [("clique", .object []), ("istanbul", .object [("policy", .natural 3)])])

theorem not_hiddenAt_threeLayers (path : List String) (below above : Fields) :
    ¬ HiddenAt (.object threeLayers.1) (.object threeLayers.2.1) (.object threeLayers.2.2)
      path below above := by
  intro hidden
  obtain ⟨key, rest, below, between, above, rfl, hl, hm, hu, hidden⟩ := hiddenAt_object.mp hidden
  simp only [threeLayers, Dictionary.find?_cons, Dictionary.find?_nil] at hl hm hu
  split at hl
  · next hkey =>
    subst hkey
    cases hl
    cases hm
    cases hu
    obtain ⟨key, _, _, _, _, -, -, hm, hu, -⟩ := hiddenAt_object.mp hidden
    simp only [Dictionary.find?_cons, Dictionary.find?_nil] at hm hu
    split at hm
    · next hkey =>
      subst hkey
      cases hu
    · cases hm
  · cases hl

theorem mergeFields_layers_three :
    Fields.Fit 1 threeLayers.1 ∧ Fields.Fit 1 threeLayers.2.1 ∧ Fields.Fit 1 threeLayers.2.2 ∧
      mergeFields (mergeFields threeLayers.1 threeLayers.2.1) threeLayers.2.2 =
        mergeFields threeLayers.1 (mergeFields threeLayers.2.1 threeLayers.2.2) := by
  have hfit : ∀ fields, (tree (.object fields)).value 2 = .ok (.object fields) →
      Fields.Fit 1 fields := fun fields h => fits_object_iff.mp (fits_of_value _ h)
  have hbase := hfit threeLayers.1 rfl
  have hfirst := hfit threeLayers.2.1 rfl
  have hsecond := hfit threeLayers.2.2 rfl
  exact ⟨hbase, hfirst, hsecond,
    (mergeFields_layers hbase hfirst hsecond).1 not_hiddenAt_threeLayers⟩

end Provision.Json
