import Mathlib.Data.List.Nodup
import Mathlib.Data.List.Pairwise
import Provision.Genesis.ChainConfig
import Provision.Proofs.Dictionary
import Provision.Proofs.Outcome

/-! Records, field by field.

The order in which members come makes no difference to a record that is read from an object:
each field is read from the last member of its name, or keeps what it has in the blank record,
`holds_of_readObject`. The other way round, an object without repetitions in which every field
is found as the record has it is read as that record, `readObject_ofList`. Both rest on what
the fields of a record owe each other, `Lawful`. -/
namespace Provision.Json

/-! ### Members by name -/

/-- The last of the members with a name. -/
def Members.last? (name : String) : Members → Option Tree
  | .stop _ => none
  | .more (.ok key) value rest => (rest.last? name).or (if key = name then some value else none)
  | .more (.error _) _ rest => rest.last? name

/-- The members of an object that closes. -/
def Members.ofList : List (String × Tree) → Members
  | [] => .stop .closed
  | (key, value) :: rest => .more (.ok key) value (ofList rest)

/-- The members of an object that is read as a map, each with the pair that it is read as. -/
theorem Members.pairs_eq_ok {κ υ : Type} {key : String → Except Refusal κ}
    {value : Tree → Except Refusal υ} : (members : Members) → ∀ {pairs : List (κ × υ)},
      members.pairs key value = .ok pairs → ∃ rows : List ((String × Tree) × (κ × υ)),
        members = .ofList (rows.map Prod.fst) ∧ pairs = rows.map Prod.snd ∧
          ∀ row ∈ rows, key row.1.1 = .ok row.2.1 ∧ value row.1.2 = .ok row.2.2
  | .stop how, _, h => by
    obtain ⟨_, haccept, ⟨⟩⟩ := bind_eq_ok_iff.mp h
    have hclosed : how = .closed := by
      cases how <;> first | rfl | cases haccept
    exact ⟨[], by rw [hclosed]; rfl, rfl, List.forall_mem_nil _⟩
  | .more (.error _) _ _, _, h => by cases h
  | .more (.ok name) tree rest, _, h => by
    obtain ⟨k, hkey, h⟩ := bind_eq_ok_iff.mp h
    obtain ⟨content, hcontent, h⟩ := bind_eq_ok_iff.mp h
    obtain ⟨others, hothers, ⟨⟩⟩ := bind_eq_ok_iff.mp h
    obtain ⟨rows, rfl, rfl, hrows⟩ := pairs_eq_ok rest hothers
    exact ⟨((name, tree), (k, content)) :: rows, rfl, rfl,
      List.forall_mem_cons.mpr ⟨⟨hkey, hcontent⟩, hrows⟩⟩

namespace Record

variable {σ : Type} {record : Record σ}

theorem find?_eq_some {name : String} {field : RecordField σ} (h : record.find? name = some field) :
    field ∈ record.fields ∧ field.name = name :=
  ⟨List.mem_of_find?_eq_some h, by simpa using List.find?_some h⟩

theorem find?_eq_none {name : String} (h : record.find? name = none) :
    ∀ field ∈ record.fields, field.name ≠ name := by
  simpa [Record.find?] using h

/-- Neither of two fields changes what the other one holds. -/
def Apart (field other : RecordField σ) : Prop :=
  (∀ value held, other.get (field.set value held) = other.get held) ∧
    ∀ value held, field.get (other.set value held) = field.get held

instance : Std.Symm (Apart (σ := σ)) where
  symm _ _ h := ⟨h.2, h.1⟩

/-- What the fields of a record owe each other: they have different names, each holds what is put
into it and leaves the others alone, and together they are the whole record. -/
structure Lawful (record : Record σ) : Prop where
  names : (record.fields.map RecordField.name).Nodup
  get_set : ∀ field ∈ record.fields, ∀ value held, field.get (field.set value held) = value
  apart : record.fields.Pairwise Apart
  ext : ∀ a b, (∀ field ∈ record.fields, field.get a = field.get b) → a = b

namespace Lawful

variable (lawful : record.Lawful)

include lawful

theorem eq_of_name {field other : RecordField σ} (hfield : field ∈ record.fields)
    (hother : other ∈ record.fields) (h : field.name = other.name) : field = other :=
  List.inj_on_of_nodup_map lawful.names hfield hother h

theorem get_set_other {field other : RecordField σ} (hfield : field ∈ record.fields)
    (hother : other ∈ record.fields) (h : field.name ≠ other.name) (value : field.α) (held : σ) :
    other.get (field.set value held) = other.get held := by
  have hapart : Apart field other :=
    lawful.apart.forall hfield hother fun he => h (congrArg _ he)
  exact hapart.1 value held

theorem find?_name {field : RecordField σ} (h : field ∈ record.fields) :
    record.find? field.name = some field := by
  cases hfind : record.find? field.name with
  | none => exact absurd rfl (find?_eq_none hfind field h)
  | some other =>
    obtain ⟨hother, hname⟩ := find?_eq_some hfind
    rw [lawful.eq_of_name hother h hname]

end Lawful

/-- Each field of a record stands as it is read from what is found under its name, and as in the
blank record if nothing is found. -/
structure Holds (record : Record σ) (depth : Nat) (found : String → Option Tree) (value : σ) :
    Prop where
  read : ∀ field ∈ record.fields, ∀ tree, found field.name = some tree →
    field.codec.read depth tree = .ok (field.get value)
  absent : ∀ field ∈ record.fields, found field.name = none →
    field.presence ≠ .required ∧ field.get value = field.get record.blank

/-! ### What has been read -/

section Read

variable (lawful : record.Lawful) {depth : Nat}

include lawful

/-- A field that has come is not read again; one that comes is read from its last member. -/
theorem readMembers_fields : (members : Members) → ∀ {seen seen' : List String} {value after : σ},
    record.readMembers depth members seen value = .ok (seen', after) →
      ∀ field ∈ record.fields,
        (field.name ∈ seen → members.last? field.name = none ∧
          field.get after = field.get value) ∧
        (field.name ∉ seen → match members.last? field.name with
          | some tree => field.codec.read depth tree = .ok (field.get after)
          | none => field.name ∉ seen' ∧ field.get after = field.get value)
  | .stop how, seen, seen', value, after, h, field, _ => by
    obtain ⟨_, -, ⟨⟩⟩ := bind_eq_ok_iff.mp h
    exact ⟨fun _ => ⟨rfl, rfl⟩, fun hs => ⟨hs, rfl⟩⟩
  | .more (.error f) _ _, _, _, _, _, h, _, _ => by cases h
  | .more (.ok name) tree rest, seen, seen', value, after, h, field, hfield => by
    rw [readMembers] at h
    rw [Members.last?]
    split at h
    · next hnone =>
      obtain ⟨_, -, h⟩ := bind_eq_ok_iff.mp h
      have hrest := readMembers_fields rest h field hfield
      rw [if_neg (Ne.symm (find?_eq_none hnone field hfield)), Option.or_none]
      exact hrest
    · next other hother =>
      split at h
      · cases h
      next hseen =>
      obtain ⟨between, hbetween, h⟩ := bind_eq_ok_iff.mp h
      obtain ⟨content, hcontent, ⟨⟩⟩ := bind_eq_ok_iff.mp hbetween
      obtain ⟨hmem, hname⟩ := find?_eq_some hother
      obtain ⟨hcame, hcomes⟩ := readMembers_fields rest h field hfield
      by_cases heq : name = field.name
      · -- The field comes here, so it does not come again.
        have hsame : other = field := lawful.eq_of_name hmem hfield (hname.trans heq)
        subst hsame
        obtain ⟨habsent, hget⟩ := hcame (heq ▸ List.mem_cons_self ..)
        rw [lawful.get_set _ hmem] at hget
        rw [habsent, if_pos heq, hget]
        exact ⟨fun hs => absurd (heq ▸ hs) hseen, fun _ => hcontent⟩
      · have hkept : field.get (other.set content value) = field.get value :=
          lawful.get_set_other hmem hfield (hname.trans_ne heq) content value
        have hseen' : field.name ∈ name :: seen ↔ field.name ∈ seen := by
          simp [Ne.symm heq]
        rw [hkept, hseen'] at hcame
        rw [hkept, hseen'] at hcomes
        rw [if_neg heq, Option.or_none]
        exact ⟨hcame, hcomes⟩

/-- A record that has been read from an object holds what the object has for it. -/
theorem holds_of_readObject {members : Members} {value : σ}
    (h : record.readObject depth members = .ok value) :
    record.Holds depth (members.last? ·) value := by
  obtain ⟨⟨seen, after⟩, hread, h⟩ := bind_eq_ok_iff.mp h
  dsimp only at h
  split at h
  · next hmissing =>
    cases h
    have hcomes := fun field hfield =>
      (readMembers_fields lawful members hread field hfield).2 List.not_mem_nil
    refine ⟨fun field hfield tree hlast => ?_, fun field hfield hlast => ?_⟩
    · have hfield := hcomes field hfield
      rw [hlast] at hfield
      exact hfield
    · have hcomes := hcomes field hfield
      rw [hlast] at hcomes
      refine ⟨fun hrequired => ?_, hcomes.2⟩
      have hnone := List.find?_eq_none.mp hmissing field hfield
      simp [hrequired, hcomes.1] at hnone
  · cases h

end Read

/-! ### What will be read -/

section Write

variable {depth : Nat} {value : σ}

/-- Each member is passed over, or it is read as the record has it. -/
def Suits (record : Record σ) (depth : Nat) (value : σ) (entries : List (String × Tree)) : Prop :=
  ∀ entry ∈ entries, match record.find? entry.1 with
    | some field => field.codec.read depth entry.2 = .ok (field.get value)
    | none => entry.2.pass = .ok ()

/-- Members that suit a record are read, and each field that comes is set to what the record
has. -/
theorem readMembers_ofList (lawful : record.Lawful) {entries : List (String × Tree)}
    (suits : record.Suits depth value entries) (distinct : (entries.map Prod.fst).Nodup)
    {seen : List String} (fresh : ∀ entry ∈ entries, entry.1 ∉ seen) (start : σ) :
    ∃ seen' after, record.readMembers depth (.ofList entries) seen start = .ok (seen', after) ∧
      (∀ name ∈ seen, name ∈ seen') ∧ ∀ field ∈ record.fields,
        (field.name ∈ entries.map Prod.fst ∧ field.name ∈ seen' ∧
          field.get after = field.get value) ∨
        (field.name ∉ entries.map Prod.fst ∧ field.get after = field.get start) := by
  induction entries generalizing seen start with
  | nil => exact ⟨seen, start, rfl, fun _ hs => hs, fun _ _ => .inr ⟨List.not_mem_nil, rfl⟩⟩
  | cons entry rest ih =>
    obtain ⟨name, tree⟩ := entry
    obtain ⟨hname, hdistinct⟩ := List.nodup_cons.mp distinct
    have hsuits := suits (name, tree) (List.mem_cons_self ..)
    have hrest : record.Suits depth value rest := fun entry he =>
      suits entry (List.mem_cons_of_mem _ he)
    have hkeys : ∀ other, other ≠ name →
        (other ∈ ((name, tree) :: rest).map Prod.fst ↔ other ∈ rest.map Prod.fst) :=
      fun other hne => List.mem_cons.trans (or_iff_right hne)
    rw [Members.ofList, readMembers]
    cases hfind : record.find? name with
    | none =>
      rw [hfind] at hsuits
      obtain ⟨seen', after, hread, hmono, hfields⟩ := ih hrest hdistinct
        (fun entry he => fresh entry (List.mem_cons_of_mem _ he)) start
      refine ⟨seen', after, bind_eq_ok_iff.mpr ⟨(), hsuits, hread⟩, hmono, fun field hfield => ?_⟩
      rw [hkeys _ (find?_eq_none hfind field hfield)]
      exact hfields field hfield
    | some field =>
      rw [hfind] at hsuits
      obtain ⟨hmem, rfl⟩ := find?_eq_some hfind
      have hfresh : field.name ∉ seen := fresh (field.name, tree) (List.mem_cons_self ..)
      have hstill : ∀ entry ∈ rest, entry.1 ∉ field.name :: seen := by
        intro entry he hseen
        rcases List.mem_cons.mp hseen with hsame | hseen
        · exact hname (List.mem_map.mpr ⟨entry, he, hsame⟩)
        · exact fresh entry (List.mem_cons_of_mem _ he) hseen
      obtain ⟨seen', after, hread, hmono, hfields⟩ := ih hrest hdistinct hstill
        (field.set (field.get value) start)
      refine ⟨seen', after, ?_, fun other ho => hmono other (List.mem_cons_of_mem _ ho),
        fun other hother => ?_⟩
      · dsimp only
        rw [if_neg hfresh]
        exact bind_eq_ok_iff.mpr ⟨_, bind_eq_ok_iff.mpr ⟨_, hsuits, rfl⟩, hread⟩
      · by_cases hsame : field.name = other.name
        · obtain rfl : field = other := lawful.eq_of_name hmem hother hsame
          refine .inl ⟨List.mem_cons_self .., hmono _ (List.mem_cons_self ..), ?_⟩
          rcases hfields field hmem with ⟨hcomes, -, -⟩ | ⟨-, hget⟩
          · exact absurd hcomes hname
          · rw [hget, lawful.get_set _ hmem]
        · rw [hkeys _ (Ne.symm hsame), ← lawful.get_set_other hmem hother hsame (field.get value)
            start]
          exact hfields other hother

/-- An object without repetitions in which a record finds what it has is read as that record. -/
theorem readObject_ofList (lawful : record.Lawful) {entries : List (String × Tree)}
    (suits : record.Suits depth value entries) (distinct : (entries.map Prod.fst).Nodup)
    (absent : ∀ field ∈ record.fields, field.name ∉ entries.map Prod.fst →
      field.presence ≠ .required ∧ field.get value = field.get record.blank) :
    record.readObject depth (.ofList entries) = .ok value := by
  obtain ⟨seen, after, hread, -, hfields⟩ := readMembers_ofList lawful suits distinct
    (fun _ _ => List.not_mem_nil) record.blank
  have hvalue : after = value := by
    refine lawful.ext _ _ fun field hfield => ?_
    rcases hfields field hfield with ⟨-, -, hget⟩ | ⟨hnot, hget⟩
    · exact hget
    · exact hget.trans (absent field hfield hnot).2.symm
  have hmissing : record.missing? seen = none := by
    refine List.find?_eq_none.mpr fun field hfield hrequired => ?_
    obtain ⟨hrequired, hseen⟩ := of_decide_eq_true hrequired
    rcases hfields field hfield with ⟨-, hcame, -⟩ | ⟨hnot, -⟩
    · exact hseen hcame
    · exact (absent field hfield hnot).1 hrequired
  refine bind_eq_ok_iff.mpr ⟨_, hread, ?_⟩
  dsimp only
  rw [hmissing, hvalue]
  rfl

/-- What is found in entries without repetitions suits the record that holds it. -/
theorem Holds.suits {entries : List (String × Tree)}
    (distinct : (entries.map Prod.fst).Nodup)
    (holds : record.Holds depth (Dictionary.find? · entries) value)
    (passes : ∀ entry ∈ entries, entry.2.pass = .ok ()) : record.Suits depth value entries := by
  intro entry he
  cases hfind : record.find? entry.1 with
  | none => exact passes entry he
  | some field =>
    obtain ⟨hmem, hname⟩ := find?_eq_some hfind
    refine holds.read field hmem entry.2 ?_
    rw [hname]
    exact (Dictionary.find?_eq_some_iff distinct).mpr he

theorem readObject_of_holds (lawful : record.Lawful) {entries : List (String × Tree)}
    (distinct : (entries.map Prod.fst).Nodup)
    (holds : record.Holds depth (Dictionary.find? · entries) value)
    (passes : ∀ entry ∈ entries, entry.2.pass = .ok ()) :
    record.readObject depth (.ofList entries) = .ok value := by
  refine readObject_ofList lawful (holds.suits distinct passes) distinct
    fun field hfield habsent => ?_
  refine holds.absent field hfield ?_
  cases hfind : Dictionary.find? field.name entries with
  | none => rfl
  | some tree =>
    exact absurd (List.mem_map.mpr ⟨_, Dictionary.mem_of_find? hfind, rfl⟩) habsent

end Write
end Record
end Provision.Json
