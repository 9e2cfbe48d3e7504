import Provision.Proofs.ByteOrder
import Provision.Proofs.Returning
import Provision.Proofs.WholeTexts
import Provision.Proofs.Words

/-! The map that spelled entries stand for.

One slot can be spelled in many ways, and the entries are taken in the order of the spellings. So
the slots are those that some key spells, each with the value of the last key in that order that
spells it, `find?_ofSpelled_iff`, and a text that is no word is noticed at the first key in that
order which has one, `ofSpelled_eq_error_iff`. Where the entries stand in the document does not
matter: `reads_slots`. -/
namespace Provision

/-! ### The last of the pairs with a key -/

namespace Dictionary

variable {κ υ : Type}

/-- The last value that is given to a key. -/
def Counts (pairs : List (κ × υ)) (key : κ) (value : υ) : Prop :=
  ∃ before after, pairs = before ++ (key, value) :: after ∧ key ∉ after.map Prod.fst

variable [DecidableEq κ]

theorem find?_reverse_eq_some_iff {pairs : List (κ × υ)} {key : κ} {value : υ} :
    find? key pairs.reverse = some value ↔ Counts pairs key value := by
  constructor
  · intro h
    induction pairs with
    | nil => cases h
    | cons pair rest ih =>
      obtain ⟨k, v⟩ := pair
      rw [List.reverse_cons, find?_append, Option.or_eq_some_iff] at h
      rcases h with h | ⟨hnone, h⟩
      · obtain ⟨before, after, rfl, hafter⟩ := ih h
        exact ⟨(k, v) :: before, after, rfl, hafter⟩
      · rw [find?_eq_none_iff, List.map_reverse, List.mem_reverse] at hnone
        rw [find?_cons] at h
        split at h
        · next hk =>
          cases h
          exact ⟨[], rest, by rw [hk]; rfl, hnone⟩
        · cases h
  · rintro ⟨before, after, rfl, hafter⟩
    have hnone : find? key after.reverse = none := by
      rw [find?_eq_none_iff, List.map_reverse, List.mem_reverse]
      exact hafter
    rw [List.reverse_append, List.reverse_cons, List.append_assoc, find?_append, hnone,
      Option.none_or, List.singleton_append, find?_cons, if_pos rfl]

theorem exists_counts_iff {pairs : List (κ × υ)} {key : κ} :
    (∃ value, Counts pairs key value) ↔ key ∈ pairs.map Prod.fst := by
  simp only [← find?_reverse_eq_some_iff, ← Option.isSome_iff_exists]
  rw [← not_iff_not, Option.not_isSome_iff_eq_none, find?_eq_none_iff, List.map_reverse,
    List.mem_reverse]

variable [LT κ] [DecidableLT κ]

theorem find?_ofList {pairs : List (κ × υ)} {key : κ} {value : υ} :
    find? key (ofList pairs) = some value ↔ Counts pairs key value := by
  rw [ofList, find?_insertAll, find?_nil, Option.or_none, find?_reverse_eq_some_iff]

theorem mem_keys_ofList {pairs : List (κ × υ)} {key : κ} :
    key ∈ (ofList pairs).map Prod.fst ↔ key ∈ pairs.map Prod.fst := by
  rw [← not_iff_not, ← find?_eq_none_iff, ← exists_counts_iff, not_exists,
    Option.eq_none_iff_forall_ne_some]
  simp only [ne_eq, find?_ofList]

variable [LE κ] [Std.IsLinearOrder κ] [Std.LawfulOrderLT κ]

theorem ascending_ofList (pairs : List (κ × υ)) : (ofList pairs).Ascending :=
  Ascending.insertAll .nil pairs

theorem mem_ofList_iff {pairs : List (κ × υ)} {entry : κ × υ} :
    entry ∈ ofList pairs ↔ Counts pairs entry.1 entry.2 := by
  rw [← find?_ofList, find?_eq_some_iff (ascending_ofList pairs).nodup]

/-- A map is determined by the values that count. -/
theorem ofList_congr {pairs others : List (κ × υ)}
    (same : ∀ key value, Counts pairs key value ↔ Counts others key value) :
    ofList pairs = ofList others := by
  refine (ascending_ofList pairs).ext (ascending_ofList others) fun key =>
    Option.ext fun value => ?_
  rw [find?_ofList, find?_ofList, same]

omit [DecidableEq κ] [DecidableLT κ] in
/-- Before an entry of a map stand those with smaller keys. -/
theorem Ascending.mem_before_iff {map before after : Dictionary κ υ} {entry : κ × υ}
    (h : map.Ascending) (hmap : map = before ++ entry :: after) {other : κ × υ} :
    other ∈ before ↔ other ∈ map ∧ other.1 < entry.1 := by
  subst hmap
  obtain ⟨-, hbehind, hbefore⟩ := List.pairwise_append.mp h
  constructor
  · intro hother
    exact ⟨List.mem_append_left _ hother, hbefore other hother entry (List.mem_cons_self ..)⟩
  · rintro ⟨hother, hless⟩
    rcases List.mem_append.mp hother with hother | hother
    · exact hother
    rcases List.mem_cons.mp hother with rfl | hother
    · exact absurd hless Std.lt_irrefl
    · exact absurd (Std.lt_trans hless ((List.pairwise_cons.mp hbehind).1 other hother))
        Std.lt_irrefl

end Dictionary

namespace Storage
open Json Text
open Dictionary (Counts)

/-! ### Spelled words -/

/-- A text is a literal of the word. -/
def Spells (text : String) (word : Word) : Prop :=
  Word.Says text.toList word.toNat

def IsWord (text : String) : Prop := ∃ word, Spells text word

/-- The text is no word, and it is refused for this. -/
def Refuses (text : String) (refusal : Refusal) : Prop :=
  ∃ problem, Word.parse text.toList = .error problem ∧
    refusal = .mismatch (.refused (problem.message text.toList))

theorem readWord_eq_ok_iff {text : String} {word : Word} :
    readWord text = .ok word ↔ Spells text word := by
  rw [Spells, ← Word.parse_eq_ok_iff, readWord]
  cases Word.parse text.toList <;> simp

theorem readWord_eq_error_iff {text : String} {refusal : Refusal} :
    readWord text = .error refusal ↔ Refuses text refusal := by
  rw [Refuses, readWord]
  cases Word.parse text.toList <;> simp [eq_comm]

theorem not_isWord_of_refuses {text : String} {refusal : Refusal} (h : Refuses text refusal) :
    ¬ IsWord text := by
  rintro ⟨word, hword⟩
  cases (readWord_eq_error_iff.mpr h).symm.trans (readWord_eq_ok_iff.mpr hword)

theorem Spells.unique {text : String} {word other : Word} (h : Spells text word)
    (hother : Spells text other) : word = other := by
  have hread := readWord_eq_ok_iff.mpr h
  rw [readWord_eq_ok_iff.mpr hother] at hread
  exact (Except.ok.inj hread).symm

/-- The slot of an entry is looked at before its word. -/
def RefusesEntry (entry : String × String) (refusal : Refusal) : Prop :=
  Refuses entry.1 refusal ∨ IsWord entry.1 ∧ Refuses entry.2 refusal

/-! ### Entering -/

/-- Spelled entries, each with what it spells. -/
def Spelled (rows : List ((String × String) × (Word × Word))) : Prop :=
  ∀ row ∈ rows, Spells row.1.1 row.2.1 ∧ Spells row.1.2 row.2.2

theorem enter_eq_ok_iff {spelled : List (String × String)} {storage result : Storage} :
    storage.enter spelled = .ok result ↔ ∃ rows, spelled = rows.map Prod.fst ∧ Spelled rows ∧
      result = storage.insertAll (rows.map Prod.snd) := by
  induction spelled generalizing storage with
  | nil =>
    constructor
    · rintro ⟨⟩
      exact ⟨[], rfl, List.forall_mem_nil _, rfl⟩
    · rintro ⟨rows, hrows, -, rfl⟩
      rw [List.map_eq_nil_iff.mp hrows.symm]
      rfl
  | cons entry rest ih =>
    obtain ⟨key, value⟩ := entry
    simp only [enter, bind_eq_ok_iff, readWord_eq_ok_iff, ih]
    constructor
    · rintro ⟨slot, hslot, word, hword, rows, rfl, hrows, rfl⟩
      exact ⟨((key, value), (slot, word)) :: rows, rfl,
        List.forall_mem_cons.mpr ⟨⟨hslot, hword⟩, hrows⟩, rfl⟩
    · rintro ⟨rows, hspelled, hrows, rfl⟩
      obtain ⟨⟨_, slot, word⟩, rows, rfl, rfl, rfl⟩ := List.map_eq_cons_iff.mp hspelled.symm
      obtain ⟨hrow, hrows⟩ := List.forall_mem_cons.mp hrows
      exact ⟨slot, hrow.1, word, hrow.2, rows, rfl, hrows, rfl⟩

theorem enter_eq_error_iff {spelled : List (String × String)} {storage : Storage}
    {refusal : Refusal} : storage.enter spelled = .error refusal ↔
      ∃ before entry after, spelled = before ++ entry :: after ∧
        (∀ other ∈ before, IsWord other.1 ∧ IsWord other.2) ∧ RefusesEntry entry refusal := by
  induction spelled generalizing storage with
  | nil =>
    refine iff_of_false (by simp [enter]) ?_
    rintro ⟨before, entry, after, h, -⟩
    exact List.append_ne_nil_of_right_ne_nil before (List.cons_ne_nil entry after) h.symm
  | cons entry rest ih =>
    obtain ⟨key, value⟩ := entry
    simp only [enter, bind_eq_error_iff, readWord_eq_ok_iff, readWord_eq_error_iff, ih]
    constructor
    · rintro (hkey | ⟨slot, hslot, hvalue | ⟨word, hword, before, entry, after, rfl, hbefore, h⟩⟩)
      · exact ⟨[], _, rest, rfl, List.forall_mem_nil _, .inl hkey⟩
      · exact ⟨[], _, rest, rfl, List.forall_mem_nil _, .inr ⟨⟨slot, hslot⟩, hvalue⟩⟩
      · exact ⟨(key, value) :: before, entry, after, rfl,
          List.forall_mem_cons.mpr ⟨⟨⟨slot, hslot⟩, word, hword⟩, hbefore⟩, h⟩
    · rintro ⟨before, entry, after, hspelled, hbefore, h⟩
      cases before with
      | nil =>
        obtain ⟨rfl, rfl⟩ := List.cons.inj hspelled
        rcases h with hkey | ⟨⟨slot, hslot⟩, hvalue⟩
        · exact .inl hkey
        · exact .inr ⟨slot, hslot, .inl hvalue⟩
      | cons first before =>
        obtain ⟨rfl, rfl⟩ := List.cons.inj hspelled
        obtain ⟨⟨⟨slot, hslot⟩, word, hword⟩, hbefore⟩ := List.forall_mem_cons.mp hbefore
        exact .inr ⟨slot, hslot, .inr ⟨word, hword, before, entry, after, rfl, hbefore, h⟩⟩

theorem exists_ofSpelled_iff {map : Dictionary String String} :
    (∃ storage, ofSpelled map = .ok storage) ↔
      ∀ entry ∈ map, IsWord entry.1 ∧ IsWord entry.2 := by
  constructor
  · rintro ⟨storage, h⟩ entry hentry
    obtain ⟨rows, rfl, hrows, -⟩ := enter_eq_ok_iff.mp h
    obtain ⟨row, hrow, rfl⟩ := List.mem_map.mp hentry
    exact ⟨⟨_, (hrows row hrow).1⟩, ⟨_, (hrows row hrow).2⟩⟩
  · intro hwords
    cases h : ofSpelled map with
    | ok storage => exact ⟨storage, rfl⟩
    | error refusal =>
      obtain ⟨before, entry, after, rfl, -, hrefuses⟩ := enter_eq_error_iff.mp h
      have hentry := hwords entry (List.mem_append_right _ (List.mem_cons_self ..))
      rcases hrefuses with hkey | ⟨-, hvalue⟩
      · exact absurd hentry.1 (not_isWord_of_refuses hkey)
      · exact absurd hentry.2 (not_isWord_of_refuses hvalue)

section Ascending

variable {map : Dictionary String String} (ascending : map.Ascending)

include ascending

theorem ofSpelled_eq_error_iff {refusal : Refusal} : ofSpelled map = .error refusal ↔
    ∃ entry ∈ map, (∀ other ∈ map, other.1 < entry.1 → IsWord other.1 ∧ IsWord other.2) ∧
      RefusesEntry entry refusal := by
  rw [ofSpelled, enter_eq_error_iff]
  constructor
  · rintro ⟨before, entry, after, hmap, hbefore, h⟩
    have hentry : entry ∈ map := by simp [hmap]
    exact ⟨entry, hentry, fun other hother hless =>
      hbefore other ((ascending.mem_before_iff hmap).mpr ⟨hother, hless⟩), h⟩
  · rintro ⟨entry, hentry, hbefore, h⟩
    obtain ⟨before, after, hmap⟩ := List.append_of_mem hentry
    refine ⟨before, entry, after, hmap, fun other hother => ?_, h⟩
    obtain ⟨hother, hless⟩ := (ascending.mem_before_iff hmap).mp hother
    exact hbefore other hother hless

variable {storage : Storage} (h : ofSpelled map = .ok storage)

include h

omit ascending in
theorem mem_ofSpelled_iff {slot : Word} :
    slot ∈ storage.map Prod.fst ↔ ∃ entry ∈ map, Spells entry.1 slot := by
  obtain ⟨rows, rfl, hrows, rfl⟩ := enter_eq_ok_iff.mp h
  rw [← Dictionary.ofList, Dictionary.mem_keys_ofList]
  simp only [List.mem_map, exists_exists_and_eq_and]
  refine exists_congr fun row => and_congr_right fun hrow => ?_
  constructor
  · rintro rfl
    exact (hrows row hrow).1
  · exact (hrows row hrow).1.unique

/-- Of the keys that spell a slot the last one in the order of the keys counts. -/
theorem find?_ofSpelled_iff {slot word : Word} : storage.find? slot = some word ↔
    ∃ entry ∈ map, Spells entry.1 slot ∧ Spells entry.2 word ∧
      ∀ other ∈ map, Spells other.1 slot → other.1 ≠ entry.1 → other.1 < entry.1 := by
  obtain ⟨rows, rfl, hrows, rfl⟩ := enter_eq_ok_iff.mp h
  rw [← Dictionary.ofList, Dictionary.find?_ofList]
  constructor
  · rintro ⟨before, after, hpairs, hafter⟩
    obtain ⟨front, behind, rfl, -, hbehind⟩ := List.map_eq_append_iff.mp hpairs
    obtain ⟨row, rest, rfl, hrow, rfl⟩ := List.map_eq_cons_iff.mp hbehind
    obtain ⟨hslot, hword⟩ := hrows row (by simp)
    rw [hrow] at hslot hword
    refine ⟨row.1, by simp, hslot, hword, fun other hother hspells hne => ?_⟩
    rw [List.map_append, List.map_cons] at hother ascending
    rcases List.mem_append.mp hother with hother | hother
    · exact ((ascending.mem_before_iff rfl).mp hother).2
    rcases List.mem_cons.mp hother with rfl | hother
    · exact absurd rfl hne
    · obtain ⟨last, hlast, rfl⟩ := List.mem_map.mp hother
      have hsame := (hrows last (by simp [hlast])).1.unique hspells
      refine absurd ?_ hafter
      exact List.mem_map.mpr ⟨last.2, List.mem_map.mpr ⟨last, hlast, rfl⟩, hsame⟩
  · rintro ⟨entry, hentry, hslot, hword, hgreatest⟩
    obtain ⟨row, hrow, rfl⟩ := List.mem_map.mp hentry
    obtain ⟨front, rest, rfl⟩ := List.append_of_mem hrow
    have hspelled := hrows row hrow
    rw [List.map_append, List.map_cons] at ascending
    obtain ⟨-, hbehind, -⟩ := List.pairwise_append.mp ascending
    refine ⟨front.map Prod.snd, rest.map Prod.snd, ?_, fun hmem => ?_⟩
    · rw [List.map_append, List.map_cons, hslot.unique hspelled.1, hword.unique hspelled.2]
    · obtain ⟨_, hmem, hsame⟩ := List.mem_map.mp hmem
      obtain ⟨last, hlast, rfl⟩ := List.mem_map.mp hmem
      have hless : row.1.1 < last.1.1 :=
        (List.pairwise_cons.mp hbehind).1 last.1 (List.mem_map.mpr ⟨last, hlast, rfl⟩)
      have hspells := (hrows last (by simp [hlast])).1
      rw [hsame] at hspells
      have hne : last.1.1 ≠ row.1.1 := by
        intro hkey
        rw [hkey] at hless
        exact Std.lt_irrefl hless
      have hmap : last.1 ∈ (front ++ row :: rest).map Prod.fst :=
        List.mem_map.mpr ⟨last, by simp [hlast], rfl⟩
      exact Std.lt_irrefl (Std.lt_trans hless (hgreatest last.1 hmap hspells hne))

end Ascending

/-! ### Documents -/

/-- The members of an object are strings. -/
def objectOf (entries : List (String × String)) : Tree :=
  .object (.ofList (entries.map fun entry => (entry.1, .string entry.2)))

theorem pairs_objectOf (entries : List (String × String)) (depth : Nat) :
    (Members.ofList (entries.map fun entry => (entry.1, Tree.string entry.2))).pairs .ok
      (Codec.string.read depth) = .ok entries := by
  induction entries with
  | nil => rfl
  | cons entry rest ih =>
    rw [List.map_cons, Members.ofList, Members.pairs]
    exact bind_eq_ok_iff.mpr ⟨_, rfl, bind_eq_ok_iff.mpr ⟨_, rfl,
      bind_eq_ok_iff.mpr ⟨rest, ih, rfl⟩⟩⟩

theorem read_objectOf (entries : List (String × String)) (depth : Nat) :
    codec.read (depth + 1) (objectOf entries) = ofSpelled (Dictionary.ofList entries) := by
  have hmap : (objectOf entries).dictionary .ok Codec.string.read (depth + 1) =
      .ok (Dictionary.ofList entries) :=
    bind_eq_ok_iff.mpr ⟨entries, pairs_objectOf entries depth, rfl⟩
  show (Tree.dictionary .ok Codec.string.read (depth + 1) (objectOf entries) >>= ofSpelled) = _
  rw [hmap]
  rfl

theorem read_objectOf_congr {entries others : List (String × String)}
    (same : ∀ key value, Counts others key value ↔ Counts entries key value) (depth : Nat) :
    codec.read depth (objectOf others) = codec.read depth (objectOf entries) := by
  cases depth with
  | zero => rfl
  | succ depth => rw [read_objectOf, read_objectOf, Dictionary.ofList_congr same]

/-- Of the keys that spell a slot the greatest one in the order of their bytes. -/
structure Greatest (entries : List (String × String)) (slot : Word) (key : String) : Prop where
  mem : key ∈ entries.map Prod.fst
  spells : Spells key slot
  others : ∀ other ∈ entries.map Prod.fst, Spells other slot → other ≠ key →
    Utf8.encode other < Utf8.encode key

/-- How an object of strings is read as a storage, wherever it stands. -/
structure ReadsEntries (entries : List (String × String)) : Prop where
  /-- All keys and values have to be words. -/
  accepted : ∀ depth, (∃ storage, codec.read (depth + 1) (objectOf entries) = .ok storage) ↔
    ∀ key value, Counts entries key value → IsWord key ∧ IsWord value
  /-- The slots are those that the keys spell, each of them once. -/
  slots : ∀ depth storage, codec.read (depth + 1) (objectOf entries) = .ok storage →
    storage.Ascending ∧
      ∀ slot, slot ∈ storage.map Prod.fst ↔ ∃ key ∈ entries.map Prod.fst, Spells key slot
  /-- A slot has the word that its greatest key has. -/
  words : ∀ depth storage, codec.read (depth + 1) (objectOf entries) = .ok storage →
    ∀ slot word, storage.find? slot = some word ↔
      ∃ key value, Greatest entries slot key ∧ Counts entries key value ∧ Spells value word
  /-- What is reported is the first text that is no word, by the order of the keys. -/
  refused : ∀ depth refusal, codec.read (depth + 1) (objectOf entries) = .error refusal ↔
    ∃ key value, Counts entries key value ∧ RefusesEntry (key, value) refusal ∧
      ∀ other content, Counts entries other content → Utf8.encode other < Utf8.encode key →
        IsWord other ∧ IsWord content
  /-- The order of the members does not count, but for those with equal keys. -/
  order : ∀ others, (∀ key value, Counts others key value ↔ Counts entries key value) →
    ∀ depth, codec.read depth (objectOf others) = codec.read depth (objectOf entries)
  /-- A text that holds the object and nothing else is read as the object is. -/
  document : ∀ text, (objectOf entries).Fills text →
    (∀ storage, codec.read mostDepth (objectOf entries) = .ok storage →
      decode codec.read text = .ok storage) ∧
    ∀ mismatch, codec.read mostDepth (objectOf entries) = .error (.mismatch mismatch) →
      decode codec.read text = .error (.mismatch mismatch)

/-- **The storage that an object of strings stands for.** -/
theorem reads_slots (entries : List (String × String)) : ReadsEntries entries := by
  have ascending := Dictionary.ascending_ofList entries
  have hkeys : ∀ key, key ∈ entries.map Prod.fst ↔
      ∃ entry ∈ Dictionary.ofList entries, entry.1 = key := by
    intro key
    rw [← Dictionary.mem_keys_ofList, List.mem_map]
  constructor
  case accepted =>
    intro depth
    rw [read_objectOf, exists_ofSpelled_iff, Prod.forall]
    simp only [Dictionary.mem_ofList_iff]
  case slots =>
    intro depth storage h
    rw [read_objectOf] at h
    refine ⟨ascending_of_enter _ h .nil, fun slot => ?_⟩
    rw [mem_ofSpelled_iff h]
    simp only [hkeys, exists_exists_and_eq_and]
  case words =>
    intro depth storage h slot word
    rw [read_objectOf] at h
    rw [find?_ofSpelled_iff ascending h]
    constructor
    · rintro ⟨entry, hentry, hslot, hword, hothers⟩
      refine ⟨entry.1, entry.2, ⟨(hkeys _).mpr ⟨entry, hentry, rfl⟩, hslot, ?_⟩,
        Dictionary.mem_ofList_iff.mp hentry, hword⟩
      intro other hother hspells hne
      obtain ⟨another, hanother, rfl⟩ := (hkeys other).mp hother
      exact Utf8.encode_lt_encode_iff.mpr (hothers another hanother hspells hne)
    · rintro ⟨key, value, hgreatest, hcounts, hword⟩
      refine ⟨(key, value), Dictionary.mem_ofList_iff.mpr hcounts, hgreatest.spells, hword, ?_⟩
      intro other hother hspells hne
      have hmem := (hkeys other.1).mpr ⟨other, hother, rfl⟩
      exact Utf8.encode_lt_encode_iff.mp (hgreatest.others _ hmem hspells hne)
  case refused =>
    intro depth refusal
    rw [read_objectOf, ofSpelled_eq_error_iff ascending]
    simp only [Prod.exists, Prod.forall, Dictionary.mem_ofList_iff, Utf8.encode_lt_encode_iff]
    exact exists_congr fun key => exists_congr fun value => and_congr_right fun _ => and_comm
  case order => exact fun others same => read_objectOf_congr same
  case document =>
    intro text hfills
    exact ⟨fun _ => decode_of_fills hfills, fun _ => decode_mismatch_of_fills hfills⟩

/-- Three spellings of one slot, of which `0x1` comes last. -/
example : ofSpelled (Dictionary.ofList [("0x1", "a"), ("01", "b"), ("0x01", "c")]) =
    .ok [(Fixed.ofNat 1, Fixed.ofNat 10)] := by
  decide +kernel

end Storage

end Provision
