import Provision.Proofs.Reordering
import Provision.Proofs.Returning

/-! What comes of trees that are alike.

A decoder settles a shape if the same comes of trees that are alike in that shape, whenever
something comes of both, `Decoder.Settles`. Plain types settle every shape. Records and maps settle
theirs, because under each name they find alike trees: `Record.settles`,
`Tree.dictionary_settles`. -/
namespace Provision

open Json

namespace Json

def Decoder.Settles {α : Type} (shape : Shape) (decoder : Decoder α) : Prop :=
  ∀ ⦃depth : Nat⦄ ⦃tree other : Tree⦄ ⦃first second : α⦄, tree.Alike shape other →
    decoder depth tree = .ok first → decoder depth other = .ok second → first = second

/-! ### Plain types -/

section Plain

variable {shape : Shape}

/-- A type that is never read from a list or an object. -/
theorem Decoder.settles_of_plain {α : Type} {decoder : Decoder α}
    (plain : ∀ {depth tree value}, decoder depth tree = .ok value → tree.isPlain = true) :
    decoder.Settles shape := by
  intro depth tree other first second halike hfirst hsecond
  rw [halike.eq_of_isPlain (plain hfirst), hfirst] at hsecond
  exact Except.ok.inj hsecond

theorem Codec.uint64_settles : Codec.uint64.read.Settles shape :=
  Decoder.settles_of_plain fun {_ tree _} h => by
    cases tree <;> first | rfl | cases h

theorem Codec.bool_settles : Codec.bool.read.Settles shape :=
  Decoder.settles_of_plain fun {_ tree _} h => by
    cases tree <;> first | rfl | cases h

theorem Codec.string_settles : Codec.string.read.Settles shape :=
  Decoder.settles_of_plain fun {_ tree _} h => by
    cases tree <;> first | rfl | cases h

theorem Tree.byte_settles {tree other : Tree} {first second : UInt8}
    (halike : tree.Alike shape other) (hfirst : tree.byte = .ok first)
    (hsecond : other.byte = .ok second) : first = second := by
  have hplain : tree.isPlain = true := by
    cases tree <;> first | rfl | cases hfirst
  rw [halike.eq_of_isPlain hplain, hfirst] at hsecond
  exact Except.ok.inj hsecond

theorem Codec.optional_of_value {α : Type} {codec : Codec α} {depth : Nat} {tree : Tree}
    (h : tree.isNull = false) :
    codec.optional.read depth tree = (codec.read depth tree).map some := by
  cases tree <;> first | rfl | cases h

theorem Codec.optional_settles {α : Type} {codec : Codec α} (h : codec.read.Settles shape) :
    codec.optional.read.Settles shape := by
  intro depth tree other first second halike hfirst hsecond
  cases hnull : tree.isNull with
  | true =>
    have hplain : tree.isPlain = true := by
      cases tree <;> first | rfl | cases hnull
    rw [halike.eq_of_isPlain hplain, hfirst] at hsecond
    exact Except.ok.inj hsecond
  | false =>
    rw [Codec.optional_of_value hnull] at hfirst
    rw [Codec.optional_of_value (halike.kind.2.trans hnull)] at hsecond
    obtain ⟨inner, hinner, rfl⟩ := map_eq_ok_iff.mp hfirst
    obtain ⟨other, hother, rfl⟩ := map_eq_ok_iff.mp hsecond
    exact congrArg some (h halike hinner hother)

theorem Items.bytes_settle {shapes : List Shape} : (items : Items) → ∀ {others : Items}
    {first second : Bytes}, items.Alike shapes others → items.bytes = .ok first →
      others.bytes = .ok second → first = second
  | .stop how, others, first, second, halike, hfirst, hsecond => by
    rw [halike.stop, hfirst] at hsecond
    exact Except.ok.inj hsecond
  | .more item rest, others, first, second, halike, hfirst, hsecond => by
    obtain ⟨other, back, rfl, hitem, hrest⟩ := halike.more
    obtain ⟨byte, hbyte, hfirst⟩ := bind_eq_ok_iff.mp hfirst
    obtain ⟨bytes, hbytes, ⟨⟩⟩ := bind_eq_ok_iff.mp hfirst
    obtain ⟨byte', hbyte', hsecond⟩ := bind_eq_ok_iff.mp hsecond
    obtain ⟨bytes', hbytes', ⟨⟩⟩ := bind_eq_ok_iff.mp hsecond
    rw [Tree.byte_settles hitem hbyte hbyte', bytes_settle rest hrest hbytes hbytes']

/-- Of the bytes in two lists as many count as are wanted, and what is behind them does not. -/
theorem Items.exactly_settle {tooShort : Nat → Refusal} {tooLong : Refusal} {missing found : Nat}
    {shapes : List Shape} {items others again further : Items} {first second : Bytes}
    (halike : items.Alike shapes others) (hagain : again.Leads items)
    (hfurther : further.Leads others)
    (hfirst : again.exactly tooShort tooLong found missing = .ok first)
    (hsecond : further.exactly tooShort tooLong found missing = .ok second) : first = second := by
  induction missing generalizing items others again further shapes found first second with
  | zero =>
    rw [Items.exactly] at hfirst hsecond
    obtain ⟨_, -, ⟨⟩⟩ := bind_eq_ok_iff.mp hfirst
    obtain ⟨_, -, ⟨⟩⟩ := bind_eq_ok_iff.mp hsecond
    rfl
  | succ missing ih =>
    cases again with
    | stop how =>
      rw [Items.exactly] at hfirst
      obtain ⟨_, -, hfirst⟩ := bind_eq_ok_iff.mp hfirst
      cases hfirst
    | more item rest =>
    cases further with
    | stop how =>
      rw [Items.exactly] at hsecond
      obtain ⟨_, -, hsecond⟩ := bind_eq_ok_iff.mp hsecond
      cases hsecond
    | more other back =>
    cases items with
    | stop how => exact hagain.elim
    | more source items =>
    obtain ⟨target, others, rfl, hsource, hitems⟩ := halike.more
    rw [Items.exactly] at hfirst hsecond
    obtain ⟨byte, hbyte, hfirst⟩ := bind_eq_ok_iff.mp hfirst
    obtain ⟨bytes, hbytes, ⟨⟩⟩ := bind_eq_ok_iff.mp hfirst
    obtain ⟨byte', hbyte', hsecond⟩ := bind_eq_ok_iff.mp hsecond
    obtain ⟨bytes', hbytes', ⟨⟩⟩ := bind_eq_ok_iff.mp hsecond
    have hitem := hsource.of_forget hagain.1 hfurther.1
    rw [Tree.byte_settles hitem hbyte hbyte',
      ih hitems hagain.2 hfurther.2 hbytes hbytes']

end Plain

/-! ### What has been left of a tree -/

/-- A tree, but for places in the text, or the front of a list. -/
def Tree.Leads (again tree : Tree) : Prop :=
  again.forget = tree.forget ∨
    ∃ items others, tree = .array items ∧ again = .array others ∧ others.Leads items

theorem Record.Left.leads {σ : Type} {record : Record σ} {name : String} {tree again : Tree}
    (h : record.Left name tree again) : again.Leads tree :=
  h.imp_right And.right

namespace Tree.Leads

variable {again tree : Tree}

theorem array {items : Items} (h : Tree.Leads (.array items) tree) :
    ∃ source, tree = .array source ∧ items.Leads source := by
  rcases h with hforget | ⟨source, again, rfl, he, hleads⟩
  · cases tree with
    | array source => exact ⟨source, rfl, Items.leads_of_forget items (Tree.array.inj hforget)⟩
    | _ => cases hforget
  · cases he
    exact ⟨source, rfl, hleads⟩

theorem isList (h : again.Leads tree) : again.isList = tree.isList := by
  rcases h with hforget | ⟨source, again, rfl, rfl, -⟩
  · rw [← again.isList_forget, hforget, tree.isList_forget]
  · rfl

theorem eq_of_isPlain (h : again.Leads tree) (plain : again.isPlain = true) : tree = again := by
  rcases h with hforget | ⟨source, again, rfl, rfl, -⟩
  · cases again with
    | array _ => cases plain
    | object _ => cases plain
    | broken _ _ _ => cases plain
    | _ => cases tree <;> first | cases hforget; rfl | cases hforget
  · cases plain

end Tree.Leads
end Json

theorem Fixed.read_cases {size depth : Nat} {tree : Tree} {word : Fixed size}
    (h : codec.read depth tree = .ok word) :
    (∃ text, tree = .string text) ∨ ∃ items bytes, tree = .array items ∧ word = front bytes ∧
      items.exactly (lengthError size) (lengthError size (size + 1)) 0 size = .ok bytes := by
  cases tree with
  | string text => exact .inl ⟨text, rfl⟩
  | array items =>
    obtain ⟨less, -, h⟩ := deeper_eq_ok_iff.mp h
    obtain ⟨bytes, hbytes, ⟨⟩⟩ := bind_eq_ok_iff.mp h
    exact .inr ⟨items, bytes, rfl, rfl, hbytes⟩
  | _ => cases h

/-- The same word comes of what has been left of alike trees. -/
theorem Fixed.settles_leads {size depth : Nat} {shape : Shape} {tree other again further : Tree}
    {first second : Fixed size} (halike : tree.Alike shape other) (hagain : again.Leads tree)
    (hfurther : further.Leads other) (hfirst : codec.read depth again = .ok first)
    (hsecond : codec.read depth further = .ok second) : first = second := by
  rcases Fixed.read_cases hfirst with ⟨text, rfl⟩ | ⟨items, bytes, rfl, rfl, hbytes⟩
  · obtain rfl := hagain.eq_of_isPlain rfl
    obtain rfl := halike.eq_of_isPlain rfl
    rcases Fixed.read_cases hsecond with ⟨text', rfl⟩ | ⟨items, bytes, rfl, -, -⟩
    · cases hfurther.eq_of_isPlain rfl
      exact Except.ok.inj (hfirst.symm.trans hsecond)
    · cases hfurther.isList
  · obtain ⟨source, rfl, hleads⟩ := hagain.array
    obtain ⟨target, rfl, hitems⟩ := halike.array
    rcases Fixed.read_cases hsecond with ⟨text, rfl⟩ | ⟨others, bytes', rfl, rfl, hbytes'⟩
    · cases hfurther.isList
    · obtain ⟨_, he, hleads'⟩ := hfurther.array
      cases he
      rw [Items.exactly_settle hitems hleads hleads' hbytes hbytes']

section Document

variable {shape : Shape}

theorem Fixed.settles {size : Nat} : (codec : Codec (Fixed size)).read.Settles shape := by
  intro depth tree other first second halike hfirst hsecond
  exact Fixed.settles_leads halike (.inl rfl) (.inl rfl) hfirst hsecond

theorem Bytes.settles : codec.read.Settles shape := by
  intro depth tree other first second halike hfirst hsecond
  cases tree with
  | string text =>
    rw [halike.eq_of_isPlain rfl, hfirst] at hsecond
    exact Except.ok.inj hsecond
  | array items =>
    obtain ⟨others, rfl, hitems⟩ := halike.array
    obtain ⟨_, -, hfirst⟩ := deeper_eq_ok_iff.mp hfirst
    obtain ⟨_, -, hsecond⟩ := deeper_eq_ok_iff.mp hsecond
    exact Items.bytes_settle items hitems hfirst hsecond
  | _ => cases hfirst

theorem Quantity.settles : codec.read.Settles shape :=
  Decoder.settles_of_plain fun {_ tree _} h => by
    cases tree <;> first | rfl | cases h

theorem UInt256.settles : codec.read.Settles shape :=
  Decoder.settles_of_plain fun {_ tree _} h => by
    cases tree <;> first | rfl | cases h

end Document

namespace Json

/-! ### Maps -/

section Dictionary

variable {κ υ : Type} {key : String → Except Refusal κ} {value : Tree → Except Refusal υ}
  {rows others : List ((String × Tree) × (κ × υ))}

theorem Members.keys_ofList (entries : List (String × Tree)) :
    (Members.ofList entries).keys = entries.map Prod.fst := by
  induction entries with
  | nil => rfl
  | cons entry rest ih =>
    rw [List.map_cons, ← ih]
    rfl

/-- The keys are distinct as they are spelled, and as they are read. -/
theorem nodup_of_rows
    (hrows : ∀ row ∈ rows, key row.1.1 = .ok row.2.1 ∧ value row.1.2 = .ok row.2.2)
    (distinct : ((Members.ofList (rows.map Prod.fst)).keys.map key).Nodup) :
    ((rows.map Prod.fst).map Prod.fst).Nodup ∧ ((rows.map Prod.snd).map Prod.fst).Nodup := by
  rw [Members.keys_ofList] at distinct
  have hread : ((rows.map Prod.fst).map Prod.fst).map key =
      ((rows.map Prod.snd).map Prod.fst).map Except.ok := by
    simp only [List.map_map]
    exact List.map_congr_left fun row hrow => (hrows row hrow).1
  refine ⟨.of_map _ distinct, ?_⟩
  rw [hread] at distinct
  exact .of_map _ distinct

/-- Pairs are among the others if the members that they are read from have their like there. -/
theorem pairs_subset {R : Tree → Tree → Prop}
    (hrows : ∀ row ∈ rows, key row.1.1 = .ok row.2.1 ∧ value row.1.2 = .ok row.2.2)
    (hothers : ∀ row ∈ others, key row.1.1 = .ok row.2.1 ∧ value row.1.2 = .ok row.2.2)
    (distinct : ((rows.map Prod.fst).map Prod.fst).Nodup)
    (distinct' : ((others.map Prod.fst).map Prod.fst).Nodup)
    (found : ∀ name, Option.Rel R (Dictionary.find? name (rows.map Prod.fst))
      (Dictionary.find? name (others.map Prod.fst)))
    (settles : ∀ tree other a b, R tree other → value tree = .ok a → value other = .ok b → a = b) :
    rows.map Prod.snd ⊆ others.map Prod.snd := by
  intro pair hpair
  obtain ⟨row, hrow, rfl⟩ := List.mem_map.mp hpair
  obtain ⟨hkey, hvalue⟩ := hrows row hrow
  have hsame := found row.1.1
  rw [(Dictionary.find?_eq_some_iff distinct).mpr (List.mem_map_of_mem hrow)] at hsame
  obtain ⟨tree, htree, hsame⟩ := Option.Rel.exists_of_left hsame
  obtain ⟨other, hother, he⟩ := List.mem_map.mp ((Dictionary.find?_eq_some_iff distinct').mp htree)
  obtain ⟨hother_key, hother_value⟩ := hothers other hother
  rw [he] at hother_key hother_value
  have hname := Except.ok.inj (hkey.symm.trans hother_key)
  have hresult := settles _ _ _ _ hsame hvalue hother_value
  exact List.mem_map.mpr ⟨other, hother, (Prod.ext hname hresult).symm⟩

variable [LT κ] [DecidableLT κ] [DecidableEq κ] [LE κ] [Std.IsLinearOrder κ]
  [Std.LawfulOrderLT κ]

/-- Maps are settled if no two keys of an object name the same. -/
theorem Tree.dictionary_settles {read : Decoder υ} {shape inner : Shape}
    (hmember : ∀ name, shape.member name = some inner) (settles : read.Settles inner) {depth : Nat}
    {tree other : Tree} {first second : Dictionary κ υ} (halike : tree.Alike shape other)
    (distinct : ∀ members, tree = .object members → (members.keys.map key).Nodup)
    (distinct' : ∀ members, other = .object members → (members.keys.map key).Nodup)
    (hfirst : tree.dictionary key read depth = .ok first)
    (hsecond : other.dictionary key read depth = .ok second) : first = second := by
  cases tree with
  | object members =>
    obtain ⟨others, rfl, hfound⟩ := halike.object
    obtain ⟨pairs, hpairs, ⟨⟩⟩ := bind_eq_ok_iff.mp hfirst
    obtain ⟨less, rfl, hpairs⟩ := deeper_eq_ok_iff.mp hpairs
    obtain ⟨pairs', hpairs', ⟨⟩⟩ := bind_eq_ok_iff.mp hsecond
    obtain ⟨rows, rfl, rfl, hrows⟩ := Members.pairs_eq_ok members hpairs
    obtain ⟨rows', rfl, rfl, hrows'⟩ := Members.pairs_eq_ok others hpairs'
    obtain ⟨hspelled, hread⟩ := nodup_of_rows hrows (distinct _ rfl)
    obtain ⟨hspelled', hread'⟩ := nodup_of_rows hrows' (distinct' _ rfl)
    simp only [last?_ofList hspelled, last?_ofList hspelled'] at hfound
    have hsame : ∀ name, Option.Rel (Tree.Alike inner)
        (Dictionary.find? name (rows.map Prod.fst))
        (Dictionary.find? name (rows'.map Prod.fst)) := fun name => hfound name inner (hmember name)
    have hperm : (rows.map Prod.snd).Perm (rows'.map Prod.snd) :=
      (List.perm_ext_iff_of_nodup (.of_map _ hread) (.of_map _ hread')).mpr fun pair =>
        ⟨fun hpair => pairs_subset hrows hrows' hspelled hspelled' hsame
            (fun _ _ _ _ halike ha hb => settles halike ha hb) hpair,
          fun hpair => pairs_subset hrows' hrows hspelled' hspelled
            (fun name => Option.Rel.swap (hsame name))
            (fun _ _ _ _ halike hb ha => (settles halike ha hb).symm) hpair⟩
    have hsorted : (Dictionary.ofList (rows'.map Prod.snd)).Perm (rows'.map Prod.snd) :=
      Dictionary.ofList_perm hread'
    exact Dictionary.ofList_of_perm (Dictionary.Ascending.insertAll .nil _)
      (hperm.trans hsorted.symm)
  | _ => cases hfirst

end Dictionary

/-! ### Values of any shape -/

/-- The same value comes of this tree and of those that are like it as a whole. -/
def Tree.Settled (tree : Tree) : Prop :=
  ∀ ⦃depth : Nat⦄ ⦃other : Tree⦄ ⦃first second : Json⦄, tree.Alike .whole other →
    tree.value depth = .ok first → other.value depth = .ok second → first = second

theorem Items.values_settle {depth : Nat} : (items : Items) → items.All Tree.Settled →
    ∀ {others : Items} {first second : List Json}, items.Alike [] others →
      items.values depth = .ok first → others.values depth = .ok second → first = second
  | .stop how, _, others, first, second, halike, hfirst, hsecond => by
    rw [halike.stop, hfirst] at hsecond
    exact Except.ok.inj hsecond
  | .more item rest, hall, others, first, second, halike, hfirst, hsecond => by
    obtain ⟨other, back, rfl, hitem, hrest⟩ := halike.more
    obtain ⟨value, hvalue, hfirst⟩ := bind_eq_ok_iff.mp hfirst
    obtain ⟨values, hvalues, ⟨⟩⟩ := bind_eq_ok_iff.mp hfirst
    obtain ⟨value', hvalue', hsecond⟩ := bind_eq_ok_iff.mp hsecond
    obtain ⟨values', hvalues', ⟨⟩⟩ := bind_eq_ok_iff.mp hsecond
    rw [hall.1 hitem hvalue hvalue', values_settle rest hall.2 hrest hvalues hvalues']

/-- An object is the map of what is found in it. -/
theorem Members.fields_settle {depth : Nat} {members others : Members} {first second : Fields}
    (hall : members.All Tree.Settled)
    (halike : (Tree.object members).Alike .whole (.object others))
    (hfirst : members.fields depth [] = .ok first)
    (hsecond : others.fields depth [] = .ok second) : first = second := by
  obtain ⟨_, ⟨⟩, hfound⟩ := halike.object
  have hascending := (fit_of_fields members hfirst .nil).ascending
  have hascending' := (fit_of_fields others hsecond .nil).ascending
  refine hascending.ext hascending' fun name => ?_
  have hrel := hfound name .whole rfl
  rcases lookup_fields hfirst name with ⟨hlast, hnone⟩ | ⟨tree, value, hlast, hvalue, hsome⟩
  · rw [hlast] at hrel
    rcases lookup_fields hsecond name with ⟨-, hnone'⟩ | ⟨other, _, hlast', -, -⟩
    · rw [hnone, hnone']
    · rw [hlast'] at hrel
      cases hrel
  · rw [hlast] at hrel
    obtain ⟨other, hother, hsame⟩ := Option.Rel.exists_of_left hrel
    rcases lookup_fields hsecond name with ⟨hlast', -⟩ | ⟨_, value', hlast', hvalue', hsome'⟩
    · rw [hlast'] at hother
      cases hother
    · rw [hlast'] at hother
      cases hother
      have hsettled : tree.Settled := Members.All.last? members hall hlast
      rw [hsome, hsome', hsettled hsame hvalue hvalue']

mutual

theorem Tree.settled : (tree : Tree) → tree.Settled
  | .array items, depth, other, first, second, halike, hfirst, hsecond => by
    obtain ⟨others, rfl, hitems⟩ := halike.array
    obtain ⟨values, hvalues, ⟨⟩⟩ := bind_eq_ok_iff.mp hfirst
    obtain ⟨less, rfl, hvalues⟩ := deeper_eq_ok_iff.mp hvalues
    obtain ⟨values', hvalues', ⟨⟩⟩ := bind_eq_ok_iff.mp hsecond
    rw [Items.values_settle items (Items.settled items) hitems hvalues hvalues']
  | .object members, depth, other, first, second, halike, hfirst, hsecond => by
    obtain ⟨others, rfl, -⟩ := halike.object
    obtain ⟨fields, hfields, ⟨⟩⟩ := bind_eq_ok_iff.mp hfirst
    obtain ⟨less, rfl, hfields⟩ := deeper_eq_ok_iff.mp hfields
    obtain ⟨fields', hfields', ⟨⟩⟩ := bind_eq_ok_iff.mp hsecond
    rw [Members.fields_settle (Members.settled members) halike hfields hfields']
  | .broken _ _ _, _, _, _, _, _, hfirst, _ => by cases hfirst
  | .null, _, _, _, _, halike, hfirst, hsecond | .bool _, _, _, _, _, halike, hfirst, hsecond
  | .number _, _, _, _, _, halike, hfirst, hsecond
  | .string _, _, _, _, _, halike, hfirst, hsecond => by
    rw [halike.eq_of_isPlain rfl, hfirst] at hsecond
    exact Except.ok.inj hsecond

theorem Items.settled : (items : Items) → items.All Tree.Settled
  | .stop _ => trivial
  | .more item rest => ⟨Tree.settled item, Items.settled rest⟩

theorem Members.settled : (members : Members) → members.All Tree.Settled
  | .stop _ => trivial
  | .more _ value rest => ⟨Tree.settled value, Members.settled rest⟩

end

theorem Codec.fields_settles : Codec.fields.read.Settles .whole := by
  intro depth tree other first second halike hfirst hsecond
  cases tree with
  | object members =>
    obtain ⟨others, rfl, -⟩ := halike.object
    have hvalue : (Tree.object members).value depth = .ok (.object first) :=
      bind_eq_ok_iff.mpr ⟨first, hfirst, rfl⟩
    have hvalue' : (Tree.object others).value depth = .ok (.object second) :=
      bind_eq_ok_iff.mpr ⟨second, hsecond, rfl⟩
    exact Json.object.inj (Tree.settled _ halike hvalue hvalue')
  | _ => cases hfirst

/-! ### Records -/

namespace Record

variable {σ : Type} {record : Record σ} {depth : Nat}

/-- A field is the same if it is read as the same, or is not there in both. -/
theorem Holds.get_eq {found found' : String → Option Tree} {first second : σ}
    (hfirst : record.Holds depth found first) (hsecond : record.Holds depth found' second)
    {field : RecordField σ} (hfield : field ∈ record.fields)
    (same : Option.Rel (fun tree other => ∀ a b, field.codec.read depth tree = .ok a →
      field.codec.read depth other = .ok b → a = b) (found field.name) (found' field.name)) :
    field.get first = field.get second := by
  cases hfound : found field.name with
  | none =>
    cases hfound' : found' field.name with
    | none => rw [(hfirst.absent field hfield hfound).2, (hsecond.absent field hfield hfound').2]
    | some other =>
      rw [hfound, hfound'] at same
      cases same
  | some tree =>
    rw [hfound] at same
    obtain ⟨other, hother, hsame⟩ := Option.Rel.exists_of_left same
    exact hsame _ _ (hfirst.read field hfield tree hfound) (hsecond.read field hfield other hother)

/-- What a record knows of its members and items. -/
def shape (record : Record σ) (inner : String → Shape) : Shape :=
  .record (record.fields.map fun field => (field.name, inner field.name))

theorem member_shape {inner : String → Shape} {field : RecordField σ} (h : field ∈ record.fields) :
    (record.shape inner).member field.name = some (inner field.name) := by
  rw [shape, Shape.member]
  generalize record.fields = fields at h ⊢
  induction fields with
  | nil => cases h
  | cons other rest ih =>
    rw [List.map_cons, Dictionary.find?_cons]
    by_cases hname : other.name = field.name
    · rw [if_pos hname, hname]
    · rw [if_neg hname]
      refine ih ((List.mem_cons.mp h).resolve_left fun he => hname ?_)
      rw [he]

theorem items_shape (inner : String → Shape) :
    (record.shape inner).items = record.fields.map fun field => inner field.name := by
  rw [shape, Shape.items, List.map_map]
  rfl

theorem readItems_settle {inner : String → Shape} {fields : List (RecordField σ)}
    (settles : ∀ field ∈ fields, field.codec.read.Settles (inner field.name)) {position : Nat}
    {items others : Items} {start first second : σ}
    (halike : items.Alike (fields.map fun field => inner field.name) others)
    (hfirst : record.readItems depth fields position items start = .ok first)
    (hsecond : record.readItems depth fields position others start = .ok second) :
    first = second := by
  induction fields generalizing position items others start with
  | nil =>
    obtain ⟨_, -, ⟨⟩⟩ := bind_eq_ok_iff.mp hfirst
    obtain ⟨_, -, ⟨⟩⟩ := bind_eq_ok_iff.mp hsecond
    rfl
  | cons field fields ih =>
    cases items with
    | stop how =>
      rw [halike.stop, hfirst] at hsecond
      exact Except.ok.inj hsecond
    | more item rest =>
      obtain ⟨other, back, rfl, hitem, hrest⟩ := halike.more
      obtain ⟨_, hfield, hfirst⟩ := bind_eq_ok_iff.mp hfirst
      obtain ⟨content, hcontent, ⟨⟩⟩ := bind_eq_ok_iff.mp hfield
      obtain ⟨_, hfield', hsecond⟩ := bind_eq_ok_iff.mp hsecond
      obtain ⟨content', hcontent', ⟨⟩⟩ := bind_eq_ok_iff.mp hfield'
      obtain rfl := settles field (List.mem_cons_self ..) hitem hcontent hcontent'
      exact ih (fun other ho => settles other (List.mem_cons_of_mem _ ho)) hrest hfirst hsecond

/-- A record settles its shape if its fields settle theirs. -/
theorem settles (lawful : record.Lawful) {inner : String → Shape}
    (h : ∀ field ∈ record.fields, field.codec.read.Settles (inner field.name)) :
    record.codec.read.Settles (record.shape inner) := by
  intro depth tree other first second halike hfirst hsecond
  cases tree with
  | object members =>
    obtain ⟨others, rfl, hfound⟩ := halike.object
    obtain ⟨less, rfl, hfirst⟩ := deeper_eq_ok_iff.mp hfirst
    refine lawful.ext _ _ fun field hfield => (holds_of_readObject lawful hfirst).get_eq
      (holds_of_readObject lawful hsecond) hfield ?_
    exact Option.Rel.imp (hfound field.name _ (member_shape hfield))
      fun _ _ _ _ hsame _ _ ha hb => h field hfield hsame ha hb
  | array items =>
    obtain ⟨others, rfl, hitems⟩ := halike.array
    obtain ⟨less, rfl, hfirst⟩ := deeper_eq_ok_iff.mp hfirst
    rw [items_shape] at hitems
    exact readItems_settle h hitems hfirst hsecond
  | _ => cases hfirst

end Record
end Json
end Provision
