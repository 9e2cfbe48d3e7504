import Provision.Genesis.Document
import Provision.Proofs.Nesting
import Provision.Proofs.Tokens

/-! Who has something struck out of a text.

Only a reader of hashes and addresses does, and only of a list with one item too many that is no
value, `Fixed.edgy`. All the others are calm, and on a tree without broken values everyone
is, `Whole`. -/
namespace Provision

open Json

namespace Json

/-- Something is to be struck out of the text. -/
def Strikes {α : Type} (result : Except Refusal α) : Prop :=
  ∃ reach, result = .error (.strike reach)

namespace Strikes

variable {α β : Type}

theorem ok {value : α} : ¬ Strikes (.ok value : Except Refusal α) := by
  rintro ⟨_, h⟩
  cases h

theorem fault {f : Fault} : ¬ Strikes (.error (.fault f) : Except Refusal α) := by
  rintro ⟨_, h⟩
  cases h

theorem mismatch {m : Mismatch} : ¬ Strikes (.error (.mismatch m) : Except Refusal α) := by
  rintro ⟨_, h⟩
  cases h

theorem bind {step : Except Refusal α} {rest : α → Except Refusal β}
    (hstep : ¬ Strikes step) (hrest : ∀ value, step = .ok value → ¬ Strikes (rest value)) :
    ¬ Strikes (step >>= rest) := by
  rintro ⟨reach, h⟩
  rcases bind_eq_error_iff.mp h with h | ⟨value, hvalue, h⟩
  · exact hstep ⟨reach, h⟩
  · exact hrest value hvalue ⟨reach, h⟩

theorem map {step : Except Refusal α} {f : α → β} (hstep : ¬ Strikes step) :
    ¬ Strikes (step.map f) := by
  rintro ⟨reach, h⟩
  exact hstep ⟨reach, map_eq_error_iff.mp h⟩

theorem accept {problem : Option Fault} : ¬ Strikes (Json.accept problem) := by
  cases problem with
  | none => exact ok
  | some f => exact fault

theorem unexpected {tree : Tree} {expected : String} :
    ¬ Strikes (.error (tree.unexpected expected) : Except Refusal α) := by
  cases tree <;> first | exact fault | exact mismatch

theorem deeper {depth : Nat} {inside : Nat → Except Refusal α}
    (h : ∀ less, ¬ Strikes (inside less)) : ¬ Strikes (Json.deeper depth inside) := by
  cases depth with
  | zero => exact fault
  | succ depth => exact h depth

end Strikes

mutual

theorem Tree.pass_calm : (tree : Tree) → ¬ Strikes tree.pass
  | .array items => items.pass_calm
  | .object members => members.pass_calm
  | .broken _ _ _ => Strikes.accept
  | .null | .bool _ | .number _ | .string _ => Strikes.ok

theorem Items.pass_calm : (items : Items) → ¬ Strikes items.pass
  | .stop _ => Strikes.accept
  | .more item rest => Strikes.bind item.pass_calm fun _ _ => rest.pass_calm

theorem Members.pass_calm : (members : Members) → ¬ Strikes members.pass
  | .stop _ => Strikes.accept
  | .more _ value rest => Strikes.bind value.pass_calm fun _ _ => rest.pass_calm

end

/-! ### Whole trees -/

def Items.All (P : Tree → Prop) : Items → Prop
  | .stop _ => True
  | .more item rest => P item ∧ rest.All P

def Members.All (P : Tree → Prop) : Members → Prop
  | .stop _ => True
  | .more _ value rest => P value ∧ rest.All P

/-- What holds of a list or an object holds of everything in it. -/
structure Hereditary (P : Tree → Prop) : Prop where
  items : ∀ items, P (.array items) → items.All P
  members : ∀ members, P (.object members) → members.All P

theorem hereditary_true : Hereditary fun _ => True where
  items := all_items
  members := all_members
where
  all_items : ∀ items : Items, True → items.All fun _ => True
    | .stop _, _ => trivial
    | .more _ rest, _ => ⟨trivial, all_items rest trivial⟩
  all_members : ∀ members : Members, True → members.All fun _ => True
    | .stop _, _ => trivial
    | .more _ _ rest, _ => ⟨trivial, all_members rest trivial⟩

/-- A tree of which a value comes. -/
def Tree.Whole (tree : Tree) : Prop := ∃ depth value, tree.value depth = .ok value

theorem whole_of_values {depth : Nat} : (items : Items) → ∀ {values : List Json},
    items.values depth = .ok values → items.All Tree.Whole
  | .stop _, _, _ => trivial
  | .more item rest, values, h => by
    obtain ⟨value, hvalue, h⟩ := bind_eq_ok_iff.mp h
    obtain ⟨others, hothers, -⟩ := bind_eq_ok_iff.mp h
    exact ⟨⟨depth, value, hvalue⟩, whole_of_values rest hothers⟩

theorem whole_of_fields {depth : Nat} : (members : Members) → ∀ {fields result : Fields},
    members.fields depth fields = .ok result → members.All Tree.Whole
  | .stop _, _, _, _ => trivial
  | .more (.error _) _ _, _, _, h => by cases h
  | .more (.ok key) value rest, fields, result, h => by
    obtain ⟨inner, hinner, h⟩ := bind_eq_ok_iff.mp h
    exact ⟨⟨depth, inner, hinner⟩, whole_of_fields rest h⟩

theorem hereditary_whole : Hereditary Tree.Whole where
  items := by
    rintro items ⟨depth, value, h⟩
    obtain ⟨values, hvalues, -⟩ := bind_eq_ok_iff.mp h
    obtain ⟨less, -, hvalues⟩ := deeper_eq_ok_iff.mp hvalues
    exact whole_of_values items hvalues
  members := by
    rintro members ⟨depth, value, h⟩
    obtain ⟨fields, hfields, -⟩ := bind_eq_ok_iff.mp h
    obtain ⟨less, -, hfields⟩ := deeper_eq_ok_iff.mp hfields
    exact whole_of_fields members hfields

/-! ### Calm decoders -/

/-- The decoder strikes nothing out of the trees of a kind. -/
def Decoder.Calm {α : Type} (P : Tree → Prop) (decoder : Decoder α) : Prop :=
  ∀ depth tree, P tree → ¬ Strikes (decoder depth tree)

section Plain

variable {P : Tree → Prop}

theorem Tree.natural_calm (tree : Tree) (limit : Nat) (expected : String) :
    ¬ Strikes (tree.natural limit expected) := by
  cases tree with
  | number n =>
    cases n with
    | natural value =>
      rw [Tree.natural]
      split
      · exact Strikes.ok
      · exact Strikes.mismatch
    | negative below => exact Strikes.mismatch
    | float value => exact Strikes.mismatch
  | broken _ _ _ => exact Strikes.fault
  | _ => exact Strikes.mismatch

theorem Tree.byte_calm (tree : Tree) : ¬ Strikes tree.byte :=
  Strikes.map (tree.natural_calm 256 "u8")

theorem Items.bytes_calm : (items : Items) → ¬ Strikes items.bytes
  | .stop _ => Strikes.bind Strikes.accept fun _ _ => Strikes.ok
  | .more item rest => Strikes.bind item.byte_calm fun _ _ =>
    Strikes.bind rest.bytes_calm fun _ _ => Strikes.ok

theorem Items.finish_calm (items : Items) : ¬ Strikes items.finish := by
  unfold Items.finish
  split <;> first | exact Strikes.ok | exact Strikes.fault

theorem Codec.uint64_calm : Codec.uint64.read.Calm P :=
  fun _ tree _ => Strikes.map (tree.natural_calm (2 ^ 64) "u64")

theorem Codec.bool_calm : Codec.bool.read.Calm P := by
  rintro depth tree -
  cases tree <;> first | exact Strikes.ok | exact Strikes.fault | exact Strikes.mismatch

theorem Codec.string_calm : Codec.string.read.Calm P := by
  rintro depth tree -
  cases tree <;> first | exact Strikes.ok | exact Strikes.fault | exact Strikes.mismatch

theorem Codec.optional_calm {α : Type} {codec : Codec α} (h : codec.read.Calm P) :
    codec.optional.read.Calm P := by
  intro depth tree hP
  cases tree with
  | null => exact Strikes.ok
  | _ => exact Strikes.map (h depth _ hP)

theorem Members.pairs_calm {κ υ : Type} {key : String → Except Refusal κ}
    {value : Tree → Except Refusal υ} (hkey : ∀ name, ¬ Strikes (key name))
    (hvalue : ∀ tree, P tree → ¬ Strikes (value tree)) :
    (members : Members) → members.All P → ¬ Strikes (members.pairs key value)
  | .stop _, _ => Strikes.bind Strikes.accept fun _ _ => Strikes.ok
  | .more (.error _) _ _, _ => Strikes.fault
  | .more (.ok name) tree rest, ⟨htree, hrest⟩ =>
    Strikes.bind (hkey name) fun _ _ => Strikes.bind (hvalue tree htree) fun _ _ =>
      Strikes.bind (Members.pairs_calm hkey hvalue rest hrest) fun _ _ => Strikes.ok

theorem Tree.dictionary_calm {κ υ : Type} [LT κ] [DecidableLT κ] [DecidableEq κ]
    {key : String → Except Refusal κ} {value : Decoder υ} (hereditary : Hereditary P)
    (hkey : ∀ name, ¬ Strikes (key name)) (hvalue : value.Calm P) :
    Decoder.Calm P (Tree.dictionary key value) := by
  intro depth tree hP
  cases tree with
  | object members =>
    refine Strikes.bind (Strikes.deeper fun less => ?_) fun _ _ => Strikes.ok
    exact Members.pairs_calm hkey (hvalue less) members (hereditary.members members hP)
  | _ => exact Strikes.unexpected

end Plain

/-! ### Records -/

namespace Record

variable {σ : Type} {record : Record σ} {P : Tree → Prop} {depth : Nat}

theorem readMembers_calm (hfields : ∀ field ∈ record.fields, field.codec.read.Calm P) :
    (members : Members) → members.All P → ∀ {seen : List String} {value : σ},
      ¬ Strikes (record.readMembers depth members seen value)
  | .stop _, _, _, _ => Strikes.bind Strikes.accept fun _ _ => Strikes.ok
  | .more (.error _) _ _, _, _, _ => Strikes.fault
  | .more (.ok name) tree rest, ⟨htree, hrest⟩, seen, value => by
    rw [readMembers]
    split
    · exact Strikes.bind tree.pass_calm fun _ _ => readMembers_calm hfields rest hrest
    · next field hfind =>
      split
      · exact Strikes.mismatch
      · have hfield := hfields field (List.mem_of_find?_eq_some hfind) depth tree htree
        exact Strikes.bind (Strikes.bind hfield fun _ _ => Strikes.ok)
          fun _ _ => readMembers_calm hfields rest hrest

theorem readItems_calm {fields : List (RecordField σ)}
    (hfields : ∀ field ∈ fields, field.codec.read.Calm P) {position : Nat} {items : Items}
    (hitems : items.All P) {value : σ} :
    ¬ Strikes (record.readItems depth fields position items value) := by
  induction fields generalizing position items value with
  | nil =>
    rw [readItems]
    exact Strikes.bind items.finish_calm fun _ _ => Strikes.ok
  | cons field fields ih =>
    have hrest : ∀ other ∈ fields, other.codec.read.Calm P :=
      fun other ho => hfields other (List.mem_cons_of_mem _ ho)
    cases items with
    | stop how =>
      rw [readItems]
      refine Strikes.bind Strikes.accept fun _ _ => ?_
      split
      · exact ih hrest hitems
      · exact Strikes.mismatch
    | more item rest =>
      rw [readItems]
      have hfield := hfields field (List.mem_cons_self ..) depth item hitems.1
      exact Strikes.bind (Strikes.bind hfield fun _ _ => Strikes.ok) fun _ _ => ih hrest hitems.2

theorem readObject_calm (hfields : ∀ field ∈ record.fields, field.codec.read.Calm P)
    {members : Members} (hmembers : members.All P) :
    ¬ Strikes (record.readObject depth members) := by
  refine Strikes.bind (readMembers_calm hfields members hmembers) fun ⟨seen, value⟩ _ => ?_
  dsimp only
  split
  · exact Strikes.ok
  · exact Strikes.mismatch

/-- A record is calm if its fields are. -/
theorem calm (hereditary : Hereditary P)
    (hfields : ∀ field ∈ record.fields, field.codec.read.Calm P) :
    record.codec.read.Calm P := by
  intro depth tree hP
  cases tree with
  | object members =>
    exact Strikes.deeper fun _ => readObject_calm hfields (hereditary.members members hP)
  | array items =>
    exact Strikes.deeper fun _ => readItems_calm hfields (hereditary.items items hP)
  | _ => exact Strikes.unexpected

end Record

/-! ### Lists with one item too many -/

/-- What the item at a place is broken over. -/
def Items.reachAt : Nat → Items → Option Reach
  | 0, .more (.broken _ _ reach) _ => some reach
  | place + 1, .more _ rest => rest.reachAt place
  | _, _ => none

theorem reachAt_of_values {depth : Nat} : (items : Items) → ∀ {values : List Json} {place : Nat},
    items.values depth = .ok values → items.reachAt place = none
  | .stop _, _, 0, _ | .stop _, _, _ + 1, _ => rfl
  | .more item rest, values, place, h => by
    obtain ⟨value, hvalue, h⟩ := bind_eq_ok_iff.mp h
    obtain ⟨others, hothers, -⟩ := bind_eq_ok_iff.mp h
    cases place with
    | zero =>
      cases item with
      | broken _ _ _ => cases hvalue
      | _ => rfl
    | succ place => exact reachAt_of_values rest hothers

/-- A list may be closed where something is struck out. -/
theorem Reach.strikes_of_close {reach other : Reach} (h : reach.close = .error (.strike other)) :
    other = reach ∧ ∃ rest, skipBlank reach.rest = ']'.toUInt8 :: rest := by
  rw [Reach.close] at h
  split at h
  · cases h
  next b rest hskip =>
  split at h
  · next hb =>
    cases h
    exact ⟨rfl, rest, hb ▸ hskip⟩
  split at h <;> cases h

theorem Reach.close_ne_ok (reach : Reach) : reach.close ≠ .ok () := by
  intro h
  rw [Reach.close] at h
  split at h
  · cases h
  split at h
  · cases h
  split at h <;> cases h

theorem Items.afterBytes_strikes {tooLong : Refusal} {reach : Reach}
    (hlong : tooLong ≠ .strike reach) {items : Items}
    (h : items.afterBytes tooLong = .error (.strike reach)) :
    items.reachAt 0 = some reach ∧ ∃ rest, skipBlank reach.rest = ']'.toUInt8 :: rest := by
  unfold Items.afterBytes at h
  split at h
  · cases h
  · cases h
  · exact absurd ⟨reach, h⟩ (Items.finish_calm _)
  · obtain ⟨rfl, hclose⟩ := Reach.strikes_of_close h
    exact ⟨rfl, hclose⟩
  · cases h
  · cases h
  · split at h
    · exact absurd (Except.error.inj h) hlong
    · exact absurd ⟨reach, h⟩ (Items.finish_calm _)

theorem Items.exactly_strikes {tooShort : Nat → Refusal} {tooLong : Refusal} {reach : Reach}
    (hshort : ∀ found, tooShort found ≠ .strike reach) (hlong : tooLong ≠ .strike reach)
    {missing found : Nat} {items : Items}
    (h : items.exactly tooShort tooLong found missing = .error (.strike reach)) :
    items.reachAt missing = some reach ∧ ∃ rest, skipBlank reach.rest = ']'.toUInt8 :: rest := by
  induction missing generalizing items found with
  | zero =>
    rw [Items.exactly] at h
    rcases bind_eq_error_iff.mp h with h | ⟨_, -, h⟩
    · exact afterBytes_strikes hlong h
    · cases h
  | succ missing ih =>
    cases items with
    | stop how =>
      rw [Items.exactly] at h
      rcases bind_eq_error_iff.mp h with h | ⟨_, -, h⟩
      · exact absurd ⟨reach, h⟩ Strikes.accept
      · exact absurd (Except.error.inj h) (hshort found)
    | more item rest =>
      rw [Items.exactly] at h
      rcases bind_eq_error_iff.mp h with h | ⟨_, -, h⟩
      · exact absurd ⟨reach, h⟩ item.byte_calm
      rcases bind_eq_error_iff.mp h with h | ⟨_, -, h⟩
      · exact ih h
      · cases h

theorem Items.exactly_reachAt {tooShort : Nat → Refusal} {tooLong : Refusal} {missing found : Nat}
    {items : Items} {bytes : Bytes}
    (h : items.exactly tooShort tooLong found missing = .ok bytes) :
    items.reachAt missing = none := by
  induction missing generalizing items found bytes with
  | zero =>
    rw [Items.exactly] at h
    obtain ⟨_, hafter, -⟩ := bind_eq_ok_iff.mp h
    cases items with
    | stop how => rfl
    | more item rest =>
      cases item with
      | broken f passing reach => exact absurd hafter reach.close_ne_ok
      | _ => rfl
  | succ missing ih =>
    cases items with
    | stop how =>
      rw [Items.exactly] at h
      obtain ⟨_, -, h⟩ := bind_eq_ok_iff.mp h
      cases h
    | more item rest =>
      rw [Items.exactly] at h
      obtain ⟨_, -, h⟩ := bind_eq_ok_iff.mp h
      obtain ⟨_, hrest, -⟩ := bind_eq_ok_iff.mp h
      exact ih hrest

/-- The decoder strikes something out of a list only, and only if the item at this place is
broken and the list may be closed there. -/
structure Decoder.Edgy {α : Type} (place : Nat) (decoder : Decoder α) : Prop where
  strikes : ∀ depth tree reach, decoder depth tree = .error (.strike reach) →
    ∃ items, tree = .array items ∧ items.reachAt place = some reach ∧
      ∃ rest, skipBlank reach.rest = ']'.toUInt8 :: rest
  read : ∀ depth items value, decoder depth (.array items) = .ok value →
    items.reachAt place = none

end Json

/-! ### Hashes and addresses -/

section Fixed

variable {size : Nat}

theorem Fixed.ofText_calm (text : String) :
    ¬ Strikes (Fixed.ofText text : Except Refusal (Fixed size)) := by
  rw [Fixed.ofText]
  split
  · exact Strikes.ok
  · exact Strikes.mismatch

theorem Fixed.edgy : Decoder.Edgy size (Fixed.codec : Codec (Fixed size)).read where
  strikes := by
    intro depth tree reach h
    cases tree with
    | array items =>
      cases depth with
      | zero => cases h
      | succ depth =>
        rcases bind_eq_error_iff.mp h with h | ⟨_, -, h⟩
        · have hlength : ∀ found, Fixed.lengthError size found ≠ .strike reach := by
            rintro found ⟨⟩
          exact ⟨items, rfl, Items.exactly_strikes hlength (hlength _) h⟩
        · cases h
    | string text => exact absurd ⟨reach, h⟩ (Fixed.ofText_calm text)
    | _ => exact absurd ⟨reach, h⟩ Strikes.unexpected
  read := by
    intro depth items word h
    obtain ⟨_, -, h⟩ := deeper_eq_ok_iff.mp h
    obtain ⟨_, hbytes, -⟩ := bind_eq_ok_iff.mp h
    exact Items.exactly_reachAt hbytes

theorem Fixed.calm_whole : Decoder.Calm Tree.Whole (Fixed.codec : Codec (Fixed size)).read := by
  rintro depth tree ⟨within, value, hvalue⟩ ⟨reach, h⟩
  obtain ⟨items, rfl, hreach, -⟩ := Fixed.edgy.strikes depth tree reach h
  obtain ⟨values, hvalues, -⟩ := bind_eq_ok_iff.mp hvalue
  obtain ⟨less, -, hvalues⟩ := deeper_eq_ok_iff.mp hvalues
  rw [reachAt_of_values items hvalues] at hreach
  cases hreach

end Fixed

/-! ### The other types of a document -/

section Document

variable {P : Tree → Prop}

theorem Bytes.codec_calm : Bytes.codec.read.Calm P := by
  rintro depth tree -
  cases tree with
  | string text =>
    rw [Bytes.codec]
    dsimp only
    split
    · exact Strikes.ok
    · exact Strikes.mismatch
  | array items => exact Strikes.deeper fun _ => items.bytes_calm
  | _ => exact Strikes.unexpected

theorem Quantity.codec_calm : Quantity.codec.read.Calm P := by
  rintro depth tree -
  show ¬ Strikes (Quantity.read tree)
  unfold Quantity.read
  split
  · exact Strikes.ok
  · exact Strikes.mismatch
  · split
    · exact Strikes.ok
    · exact Strikes.mismatch
  · exact Strikes.unexpected

theorem UInt256.codec_calm : UInt256.codec.read.Calm P := by
  rintro depth tree -
  rw [UInt256.codec]
  dsimp only
  split
  · exact Strikes.ok
  · split
    · exact Strikes.ok
    · exact Strikes.mismatch
  · exact Strikes.unexpected

theorem Storage.readWord_calm (text : String) : ¬ Strikes (Storage.readWord text) := by
  rw [Storage.readWord]
  split
  · exact Strikes.ok
  · exact Strikes.mismatch

theorem Storage.enter_calm (storage : Storage) (spelled : List (String × String)) :
    ¬ Strikes (storage.enter spelled) := by
  induction spelled generalizing storage with
  | nil => exact Strikes.ok
  | cons entry rest ih =>
    obtain ⟨slot, word⟩ := entry
    exact Strikes.bind (readWord_calm slot) fun _ _ => Strikes.bind (readWord_calm word)
      fun _ _ => ih _

theorem Storage.codec_calm (hereditary : Hereditary P) : Storage.codec.read.Calm P := by
  intro depth tree hP
  exact Strikes.bind (Tree.dictionary_calm hereditary (fun _ => Strikes.ok) Codec.string_calm depth
    tree hP) fun spelled _ => enter_calm [] spelled

theorem Account.calm (hereditary : Hereditary P) : Account.codec.read.Calm P :=
  Record.calm hereditary (by
    simp only [Account.record, List.forall_mem_cons]
    exact ⟨Codec.optional_calm Bytes.codec_calm, Storage.codec_calm hereditary, UInt256.codec_calm,
      Quantity.codec_calm, fun _ h => (nomatch h)⟩)

theorem Alloc.calm (hereditary : Hereditary P) : Alloc.codec.read.Calm P :=
  Tree.dictionary_calm hereditary Fixed.ofText_calm (Account.calm hereditary)

/-- Nothing is struck out of a configuration of which a value comes. -/
theorem ChainConfig.calm_whole : ChainConfig.codec.read.Calm Tree.Whole := by
  have hblock : Codec.uint64.optional.read.Calm Tree.Whole :=
    Codec.optional_calm Codec.uint64_calm
  have hswitch : Codec.bool.read.Calm Tree.Whole := Codec.bool_calm
  have hethash : EthashConfig.codec.read.Calm Tree.Whole :=
    Record.calm hereditary_whole fun _ h => (nomatch h)
  have hclique : CliqueConfig.codec.read.Calm Tree.Whole := Record.calm hereditary_whole (by
    simp only [CliqueConfig.record, List.forall_mem_cons]
    exact ⟨Codec.uint64_calm, Codec.uint64_calm, fun _ h => (nomatch h)⟩)
  have histanbul : IstanbulConfig.codec.read.Calm Tree.Whole := Record.calm hereditary_whole (by
    simp only [IstanbulConfig.record, List.forall_mem_cons]
    exact ⟨Codec.uint64_calm, Codec.uint64_calm, hblock, fun _ h => (nomatch h)⟩)
  refine Record.calm hereditary_whole ?_
  simp only [ChainConfig.record, List.forall_mem_cons]
  exact ⟨hblock, hblock, hblock, hswitch, hblock, Codec.optional_calm Fixed.calm_whole, hblock,
    hblock, hblock, hblock, hblock, hblock, hblock, hblock, hblock, Codec.optional_calm hethash,
    Codec.optional_calm hclique, Codec.optional_calm histanbul, hswitch, hblock,
    fun _ h => (nomatch h)⟩

end Document
end Provision
