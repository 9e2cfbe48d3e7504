import Provision.Genesis.Input
import Provision.Proofs.Nesting

/-! The configuration of a document that has been read.

A document is nested no deeper than its reader goes, and neither is the configuration that is
kept of it as it stands; what the library writes is flat. So the two merged are a value that a
reader can return, `fits_merged`. -/
namespace Provision

open Json

namespace Json

theorem Fits.mono {depth more : Nat} {value : Json} (h : Fits depth value) (hmore : depth ≤ more) :
    Fits more value := by
  induction h generalizing more with
  | null => exact .null
  | bool value => exact .bool value
  | number n => exact .number n
  | string value => exact .string value
  | array _ ih =>
    obtain ⟨more, rfl⟩ := Nat.exists_eq_succ_of_ne_zero (Nat.ne_zero_of_lt hmore)
    exact .array fun item hi => ih item hi (Nat.le_of_succ_le_succ hmore)
  | object ascending _ ih =>
    obtain ⟨more, rfl⟩ := Nat.exists_eq_succ_of_ne_zero (Nat.ne_zero_of_lt hmore)
    exact .object ascending fun member hm => ih member hm (Nat.le_of_succ_le_succ hmore)

theorem Fields.Fit.mono {depth more : Nat} {fields : Fields} (h : Fields.Fit depth fields)
    (hmore : depth ≤ more) : Fields.Fit more fields where
  ascending := h.ascending
  values := fun member hm => (h.values member hm).mono hmore

/-- What a reader returns is what it makes of a tree. -/
theorem decodeStriking_eq_ok {α : Type} {decoder : Decoder α} : (strikes : Nat) →
    ∀ {text : Bytes} {value : α}, decodeStriking decoder strikes text = .ok value →
      ∃ tree, decoder mostDepth tree = .ok value
  | strikes, text, value, h => by
    rw [decodeStriking.eq_def] at h
    cases hvalue : decoder mostDepth (readTree text).1 with
    | ok result =>
      simp only [hvalue] at h
      split at h
      · cases h
        exact ⟨_, hvalue⟩
      · cases h
    | error e =>
      cases e with
      | strike reach =>
        cases strikes with
        | zero => simp [hvalue] at h
        | succ strikes =>
          simp only [hvalue] at h
          exact decodeStriking_eq_ok strikes h
      | _ => simp [hvalue] at h

/-! ### Reading a record -/

namespace Record

variable {σ : Type} {record : Record σ} {P : σ → Prop} {depth : Nat}

section Invariant

variable (hfield : ∀ field ∈ record.fields, ∀ tree value after, P value →
  field.readInto depth tree value = .ok after → P after)

include hfield

theorem readMembers_invariant : (members : Members) → ∀ {seen seen' : List String}
    {value after : σ}, P value →
      record.readMembers depth members seen value = .ok (seen', after) → P after
  | .stop how, seen, seen', value, after, start, h => by
    obtain ⟨_, -, ⟨⟩⟩ := bind_eq_ok_iff.mp h
    exact start
  | .more (.error f) _ _, _, _, _, _, _, h => by cases h
  | .more (.ok name) tree rest, seen, seen', value, after, start, h => by
    rw [readMembers] at h
    split at h
    · obtain ⟨_, -, h⟩ := bind_eq_ok_iff.mp h
      exact readMembers_invariant rest start h
    · next field hf =>
      split at h
      · cases h
      · obtain ⟨between, hbetween, h⟩ := bind_eq_ok_iff.mp h
        have hkept := hfield field (List.mem_of_find?_eq_some hf) tree value between start hbetween
        exact readMembers_invariant rest hkept h

theorem readItems_invariant {fields : List (RecordField σ)}
    (hfields : ∀ field ∈ fields, field ∈ record.fields) {position : Nat} {items : Items}
    {value after : σ} (start : P value)
    (h : record.readItems depth fields position items value = .ok after) : P after := by
  induction fields generalizing position items value with
  | nil =>
    rw [readItems] at h
    obtain ⟨_, -, ⟨⟩⟩ := bind_eq_ok_iff.mp h
    exact start
  | cons field rest ih =>
    have hrest : ∀ other ∈ rest, other ∈ record.fields :=
      fun other ho => hfields other (List.mem_cons_of_mem _ ho)
    cases items with
    | stop how =>
      rw [readItems] at h
      obtain ⟨_, -, h⟩ := bind_eq_ok_iff.mp h
      split at h
      · exact ih hrest start h
      · cases h
    | more item others =>
      rw [readItems] at h
      obtain ⟨between, hbetween, h⟩ := bind_eq_ok_iff.mp h
      exact ih hrest (hfield field (hfields field (List.mem_cons_self ..)) item value between start
        hbetween) h

/-- What every field keeps is so of every record that is read. -/
theorem read_invariant (blank : P record.blank) {tree : Tree} {value : σ}
    (h : record.read (depth + 1) tree = .ok value) : P value := by
  cases tree with
  | object members =>
    obtain ⟨⟨seen, after⟩, hread, h⟩ := bind_eq_ok_iff.mp h
    have hafter := readMembers_invariant hfield members blank hread
    dsimp only at h
    split at h
    · cases h
      exact hafter
    · cases h
  | array items =>
    exact readItems_invariant hfield (fun _ hf => hf) blank h
  | _ => cases h

end Invariant
end Record

/-! ### Writing a record -/

/-- What a codec writes is nested no deeper than this. -/
def Codec.WritesWithin {α : Type} (depth : Nat) (codec : Codec α) : Prop :=
  ∀ value, Fits depth (codec.write value).sorted

theorem Fields.Fit.sortedMembers {depth : Nat} {members : List (String × Json)} {fields : Fields}
    (hmembers : ∀ member ∈ members, Fits depth member.2.sorted) (h : Fields.Fit depth fields) :
    Fields.Fit depth (sortedMembers members fields) := by
  induction members generalizing fields with
  | nil => exact h
  | cons member rest ih =>
    obtain ⟨key, value⟩ := member
    exact ih (fun other ho => hmembers other (List.mem_cons_of_mem _ ho))
      (h.insert (hmembers _ (List.mem_cons_self ..)) key)

theorem Codec.WritesWithin.optional {α : Type} {depth : Nat} {codec : Codec α}
    (h : codec.WritesWithin depth) : codec.optional.WritesWithin depth
  | none => .null
  | some value => h value

namespace Record

variable {σ : Type} {record : Record σ} {depth : Nat}

/-- The members of a record as a map. -/
theorem fit_members (h : ∀ field ∈ record.fields, field.codec.WritesWithin depth) (value : σ) :
    Fields.Fit depth (sortedMembers (record.members value) []) := by
  refine Fields.Fit.sortedMembers ?_ .nil
  intro member hm
  obtain ⟨field, hfield, hmember⟩ := List.mem_filterMap.mp hm
  rw [RecordField.member?] at hmember
  split at hmember
  · cases hmember
  · cases hmember
    exact h field hfield _

theorem writesWithin (h : ∀ field ∈ record.fields, field.codec.WritesWithin depth) :
    record.codec.WritesWithin (depth + 1) :=
  fun value => (fit_members h value).object

end Record
end Json

/-! ### The two configurations -/

theorem ChainConfig.fit_fields (config : ChainConfig) : Fields.Fit 1 config.fields := by
  have huint : ∀ depth, Codec.uint64.WritesWithin depth := fun _ _ => .number _
  have hbool : ∀ depth, Codec.bool.WritesWithin depth := fun _ value => .bool value
  have hhash : (Fixed.codec : Codec Hash).WritesWithin 1 := fun _ => .string _
  have hethash : EthashConfig.codec.WritesWithin 1 := Record.writesWithin (by
    intro field hf
    cases hf)
  have hclique : CliqueConfig.codec.WritesWithin 1 := Record.writesWithin (by
    simp only [CliqueConfig.record, List.forall_mem_cons]
    exact ⟨huint 0, huint 0, fun _ h => (nomatch h)⟩)
  have histanbul : IstanbulConfig.codec.WritesWithin 1 := Record.writesWithin (by
    simp only [IstanbulConfig.record, List.forall_mem_cons]
    exact ⟨huint 0, huint 0, (huint 0).optional, fun _ h => (nomatch h)⟩)
  refine Record.fit_members ?_ config
  simp only [ChainConfig.record, List.forall_mem_cons]
  have hblock := (huint 1).optional
  exact ⟨hblock, hblock, hblock, hbool 1, hblock, hhash.optional, hblock, hblock, hblock, hblock,
    hblock, hblock, hblock, hblock, hblock, hethash.optional, hclique.optional,
    histanbul.optional, hbool 1, hblock, fun _ h => (nomatch h)⟩

/-- The part of a document that is kept stands two levels below the top. -/
theorem RawConfig.fit_config {tree : Tree} {raw : RawConfig}
    (h : RawConfig.record.read mostDepth tree = .ok raw) : Fields.Fit 125 (raw.config.getD []) := by
  refine Record.read_invariant (P := fun raw => Fields.Fit 125 (raw.config.getD [])) ?_ .nil h
  intro field hfield tree raw after _ hread
  rw [RawConfig.record, List.mem_singleton] at hfield
  subst hfield
  obtain ⟨config, hconfig, ⟨⟩⟩ := bind_eq_ok_iff.mp hread
  cases tree with
  | null =>
    cases hconfig
    exact .nil
  | object members =>
    obtain ⟨fields, hfields, rfl⟩ := map_eq_ok_iff.mp hconfig
    exact fit_of_fields members hfields .nil
  | _ => cases hconfig

theorem ParsedGenesis.fit_override {text : List Char} {parsed : ParsedGenesis}
    (h : ParsedGenesis.parse text = .ok parsed) : Fields.Fit 125 parsed.override := by
  obtain ⟨genesis, -, h⟩ := bind_eq_ok_iff.mp h
  obtain ⟨raw, hraw, ⟨⟩⟩ := bind_eq_ok_iff.mp h
  obtain ⟨tree, htree⟩ := decodeStriking_eq_ok _ hraw
  exact RawConfig.fit_config htree

/-- The configuration of a document that has been read, merged over the one that the library
writes. -/
theorem ParsedGenesis.fits_merged {text : List Char} {parsed : ParsedGenesis}
    (h : ParsedGenesis.parse text = .ok parsed) :
    Fits mostDepth (.object (parsed.genesis.chainConfig.merged parsed.override)) := by
  have hlower := (parsed.genesis.chainConfig.fit_fields.mono (show 1 ≤ 125 by decide)).object
  have hmerged := (ParsedGenesis.fit_override h).object.merge _ hlower
  rw [merge] at hmerged
  exact hmerged.mono (by decide)

end Provision
