import Provision.Proofs.Effects
import Provision.Proofs.Inspecting
import Provision.Proofs.Legible
import Provision.Proofs.Overriding
import Provision.Proofs.Returning

/-! A merged configuration, read from the store in which it was kept.

The record is the text of the merged configuration, so what is read from it is the
configuration itself if its numbers are read back. The library writes natural numbers only
(`natural_of_fields`), and merging takes every value of the document over
(`mem_numbers_merge`); so all hangs on the numbers of the document, and there on the ones that
are held with double precision. An integer of 64 bits is not among them, `Num.IsInteger`, but a
longer one is, and need not be read back: `not_recalled_long`. -/
namespace Provision

namespace Json

/-! ### Numbers in a map -/

theorem mem_numbers_object {members : Fields} {n : Num} :
    n ∈ (Json.object members).numbers ↔ ∃ member ∈ members, n ∈ member.2.numbers := by
  rw [numbers, numbersOfMembers_eq, List.mem_flatMap]

theorem mem_numbers_iff_find? {members : Fields} (ascending : members.Ascending) {n : Num} :
    n ∈ (Json.object members).numbers ↔
      ∃ key value, members.find? key = some value ∧ n ∈ value.numbers := by
  rw [mem_numbers_object]
  constructor
  · rintro ⟨⟨key, value⟩, hm, hn⟩
    exact ⟨key, value, (Dictionary.find?_eq_some_iff ascending.nodup).mpr hm, hn⟩
  · rintro ⟨key, value, hf, hn⟩
    exact ⟨(key, value), Dictionary.mem_of_find? hf, hn⟩

/-- A number that the lower of two merged values does not have is there exactly if the upper one
has it. -/
theorem mem_numbers_merge {depth : Nat} {upper : Json} (h : Fits depth upper) {n : Num} :
    ∀ {lower : Json}, Fits depth lower → n ∉ lower.numbers →
      (n ∈ (merge lower upper).numbers ↔ n ∈ upper.numbers) := by
  -- As in `Fits.merge` the upper value is followed down, one key at a time.
  induction h with
  | @object depth members ascending values ih =>
    intro lower hlower habsent
    rcases merge_cases lower (.object members) with he | ⟨base, overrides, rfl, ⟨⟩, he⟩
    · rw [he]
    have hmerged := (Fits.object ascending values).merge _ hlower
    rw [he] at hmerged ⊢
    cases hmerged with
    | object merged _ =>
    cases hlower with
    | object lowered below =>
    rw [mem_numbers_iff_find? merged, mem_numbers_iff_find? ascending]
    have hlower : ∀ key, Fits depth ((Dictionary.find? key base).getD .null) ∧
        n ∉ ((Dictionary.find? key base).getD .null).numbers := by
      intro key
      cases hf : Dictionary.find? key base with
      | none => exact ⟨.null, List.not_mem_nil⟩
      | some value =>
        have hvalue := Dictionary.mem_of_find? hf
        exact ⟨below _ hvalue, fun hn => habsent (mem_numbers_object.mpr ⟨_, hvalue, hn⟩)⟩
    have hkey : ∀ key value, Dictionary.find? key members = some value →
        (n ∈ (merge ((Dictionary.find? key base).getD .null) value).numbers ↔
          n ∈ value.numbers) := fun key value hf =>
      ih (key, value) (Dictionary.mem_of_find? hf) (hlower key).1 (hlower key).2
    constructor
    · rintro ⟨key, value, hf, hn⟩
      rw [find?_mergeFields base ascending.nodup] at hf
      cases hupper : Dictionary.find? key members with
      | none =>
        rw [hupper] at hf
        exact absurd ((mem_numbers_iff_find? lowered).mpr ⟨key, value, hf, hn⟩) habsent
      | some upper =>
        rw [hupper] at hf
        cases hf
        exact ⟨key, upper, hupper, (hkey key upper hupper).mp hn⟩
    · rintro ⟨key, value, hf, hn⟩
      refine ⟨key, _, ?_, (hkey key value hf).mpr hn⟩
      rw [find?_mergeFields base ascending.nodup, hf]
  | null => exact fun _ _ => by rw [merge_not_object _ rfl]
  | bool => exact fun _ _ => by rw [merge_not_object _ rfl]
  | number => exact fun _ _ => by rw [merge_not_object _ rfl]
  | string => exact fun _ _ => by rw [merge_not_object _ rfl]
  | array => exact fun _ _ => by rw [merge_not_object _ rfl]

/-! ### Numbers that are written -/

theorem forall_sortedMembers {P : Json → Prop} {members : List (String × Json)} {fields : Fields}
    (hmembers : ∀ member ∈ members, P member.2.sorted) (hfields : ∀ member ∈ fields, P member.2) :
    ∀ member ∈ sortedMembers members fields, P member.2 := by
  induction members generalizing fields with
  | nil => exact hfields
  | cons first rest ih =>
    obtain ⟨key, value⟩ := first
    refine ih (fun other ho => hmembers other (List.mem_cons_of_mem _ ho)) fun member hm => ?_
    rcases Dictionary.mem_of_mem_insert hm with rfl | hm
    · exact hmembers _ (List.mem_cons_self ..)
    · exact hfields member hm

theorem Written.natural_of_mem {depth : Nat} {value : Json} (h : Written depth value) :
    ∀ n ∈ value.sorted.numbers, n.isNatural := by
  induction h with
  | object _ ih =>
    intro n hn
    obtain ⟨member, hm, hn⟩ := mem_numbers_object.mp hn
    exact forall_sortedMembers (P := fun value => ∀ n ∈ value.numbers, n.isNatural) ih
      (List.forall_mem_nil _) member hm n hn
  | natural => exact List.forall_mem_singleton.mpr rfl
  | _ => exact List.forall_mem_nil _

/-- An integer of 64 bits. Minus zero is one too, although it is held with double precision. -/
def Num.IsInteger : Num → Prop
  | .natural _ | .negative _ => True
  | .float d => d = ⟨true, .zero⟩

end Json

open Json

theorem ChainConfig.natural_of_fields (config : ChainConfig) :
    ∀ n ∈ (Json.object config.fields).numbers, n.isNatural := by
  have hwritten : Written 2 (codec.write config) := (returns config).written
  exact hwritten.natural_of_mem

namespace ParsedGenesis

variable {text : List Char} {parsed : ParsedGenesis}

/-- Of the merged configuration, the document alone decides which numbers have double precision. -/
theorem float_mem_merged (accepted : parse text = .ok parsed) (d : Double) :
    .float d ∈ (Instance.wanted parsed).numbers ↔
      .float d ∈ (Json.object parsed.override).numbers := by
  have hlower := (parsed.genesis.chainConfig.fit_fields.mono (show 1 ≤ 125 by decide)).object
  have habsent : .float d ∉ (Json.object parsed.genesis.chainConfig.fields).numbers :=
    fun hd => by cases parsed.genesis.chainConfig.natural_of_fields _ hd
  have hmerge := mem_numbers_merge (fit_override accepted).object hlower habsent
  rw [merge] at hmerge
  exact hmerge

end ParsedGenesis

/-! ### The record, written and read -/

namespace Instance

variable {store after : Store} {text : List Char} {parsed : ParsedGenesis}

theorem persistMerged_eq (store : Store) (name : Name) (hash : Hash) (config : ChainConfig)
    (override : Fields) :
    persistMerged store name hash config override =
      (((store.commit (.put (Key.config hash).encode (config.mergedBytes override))).1.mapError
          (InstanceError.storeWrite name)).map fun _ => (),
        (store.commit (.put (Key.config hash).encode (config.mergedBytes override))).2) := by
  rw [persistMerged, Store.persistMerged, Store.put]
  rcases store.commit (.put (Key.config hash).encode (config.mergedBytes override)) with
    ⟨_ | _, _⟩ <;> rfl

/-- A record that has been written is found as it was written. -/
theorem readConfig_put (readable : store.readable = true) {hash : Hash} {chars : List Char}
    (h : store.put (Key.config hash).encode (Text.Utf8.ofChars chars) = (.ok (), after))
    {value : Json} : after.readConfig hash = .ok (some value) ↔ parse chars = .ok value := by
  obtain ⟨left, rfl⟩ := Store.commit_eq_ok h
  have hread : (store.written left (.put (Key.config hash).encode
      (Text.Utf8.ofChars chars))).readError? = none :=
    Store.readError?_eq_none_iff.mpr ⟨readable, rfl⟩
  refine (readConfig_eq_some_iff hread).trans ?_
  rw [Store.find?_written_put, if_pos rfl]
  constructor
  · rintro ⟨bytes, ⟨⟩, hp⟩
    exact hp
  · exact fun hp => ⟨_, rfl, hp⟩

theorem wanted_read_iff (accepted : ParsedGenesis.parse text = .ok parsed) :
    parse (wanted parsed).print = .ok (wanted parsed) ↔
      ∀ d, .float d ∈ (Json.object parsed.override).numbers →
        parse d.write = .ok (.number (.float d)) := by
  refine (parse_print_eq_ok_iff (ParsedGenesis.fits_merged accepted)).trans ?_
  exact forall_congr' fun d => imp_congr_left (ParsedGenesis.float_mem_merged accepted d)

/-- **The merged configuration of a document is kept in one transaction and read back.** If the
transaction goes through, the record is all that changes, and reading it gives the merged
configuration exactly if each number of double precision in the document is read back as it was;
so it does if all numbers there are integers of 64 bits. If the transaction is refused, the error
names the store, and nothing changes. -/
theorem persistMerged_recalled (accepted : ParsedGenesis.parse text = .ok parsed)
    (readable : store.readable = true) (name : Name) (hash : Hash) :
    let config := parsed.genesis.chainConfig
    let outcome := persistMerged store name hash config parsed.override
    store.CommitsTo (.put (Key.config hash).encode (config.mergedBytes parsed.override))
        [((Key.config hash).encode, config.mergedBytes parsed.override)] ()
        (InstanceError.storeWrite name) outcome ∧
      ∀ after, outcome = (.ok (), after) →
        (after.readConfig hash = .ok (some (wanted parsed)) ↔
          ∀ d, .float d ∈ (Json.object parsed.override).numbers →
            parse d.write = .ok (.number (.float d))) ∧
        ((∀ n ∈ (Json.object parsed.override).numbers, n.IsInteger) →
          after.readConfig hash = .ok (some (wanted parsed))) := by
  intro config outcome
  have houtcome : outcome = _ := persistMerged_eq store name hash config parsed.override
  have hcommits := store.commitsTo
    (.put (Key.config hash).encode (config.mergedBytes parsed.override))
    (List.nodup_singleton _) () (InstanceError.storeWrite name)
  rw [← houtcome] at hcommits
  refine ⟨hcommits, fun after h => ?_⟩
  rw [h] at hcommits
  cases hcommits with
  | done _ committed _ =>
    have hread : after.readConfig hash = .ok (some (wanted parsed)) ↔ _ :=
      (readConfig_put readable committed).trans (wanted_read_iff accepted)
    refine ⟨hread, fun integers => hread.mpr fun d hd => ?_⟩
    obtain rfl : d = ⟨true, .zero⟩ := integers _ hd
    exact eq_ok_of_toOption (by decide +kernel)

theorem numbers_eq_of_map {ns : List Json.Num} (accepted : ParsedGenesis.parse text = .ok parsed)
    (h : (ParsedGenesis.parse text).map (fun parsed => (Json.object parsed.override).numbers) =
      .ok ns) : (Json.object parsed.override).numbers = ns := by
  rw [accepted] at h
  exact Except.ok.inj h

/-- A document with the least and the greatest integers of 64 bits, minus zero and a null. -/
@[irreducible]
def widestDocument : List Char :=
  (r#"{"difficulty":0,"config":{"a":18446744073709551615,"# ++
    r#""b":[-9223372036854775808,-0,null]}}"#).toList

theorem persistMerged_recalled_widest :
    ∃ parsed after, ParsedGenesis.parse widestDocument = .ok parsed ∧
      (∀ n ∈ (Json.object parsed.override).numbers, n.IsInteger) ∧
        persistMerged {} fullStore Fixed.zero parsed.genesis.chainConfig parsed.override =
            (.ok (), after) ∧
          after.readConfig Fixed.zero = .ok (some (wanted parsed)) := by
  obtain ⟨parsed, accepted⟩ := @accepted_of_isOk widestDocument (by decide +kernel)
  have hnumbers : (Json.object parsed.override).numbers = [.natural 18446744073709551615,
      .negative 9223372036854775807, .float ⟨true, .zero⟩] :=
    numbers_eq_of_map accepted (eq_ok_of_toOption (by decide +kernel))
  have hintegers : ∀ n ∈ (Json.object parsed.override).numbers, n.IsInteger := by
    rw [hnumbers]
    simp [Num.IsInteger]
  have hrecalled := @persistMerged_recalled {} _ _ accepted rfl fullStore Fixed.zero
  exact ⟨parsed, _, accepted, hintegers, rfl, (hrecalled.2 _ rfl).2 hintegers⟩

/-- A document with an integer of 24 digits. -/
@[irreducible]
def longDocument : List Char :=
  r#"{"difficulty":0,"config":{"cap":300000000000000000000000}}"#.toList

/-- The integer is held with double precision, and its text is read as the number below. -/
theorem not_recalled_long :
    ∃ parsed after, ParsedGenesis.parse longDocument = .ok parsed ∧
      persistMerged {} fullStore Fixed.zero parsed.genesis.chainConfig parsed.override =
          (.ok (), after) ∧
        after.readConfig Fixed.zero ≠ .ok (some (wanted parsed)) := by
  obtain ⟨parsed, accepted⟩ := @accepted_of_isOk longDocument (by decide +kernel)
  let cap : Double := ⟨false, ⟨8940696716308594, 25⟩⟩
  have hnumbers : (Json.object parsed.override).numbers = [.float cap] :=
    numbers_eq_of_map accepted (eq_ok_of_toOption (by decide +kernel))
  have hcap : .float cap ∈ (Json.object parsed.override).numbers := by
    rw [hnumbers]
    exact List.mem_singleton_self _
  have hother : parse cap.write = .ok (.number (.float ⟨false, ⟨8940696716308593, 25⟩⟩)) :=
    eq_ok_of_toOption (by decide +kernel)
  refine ⟨parsed, _, accepted, rfl, fun hread => ?_⟩
  have hprint := (@readConfig_put {} _ rfl Fixed.zero _ rfl _).mp hread
  have hsame := (wanted_read_iff accepted).mp hprint cap hcap
  rw [hother] at hsame
  revert hsame
  decide

end Instance
end Provision
