import Provision.Proofs.Shapes

/-! Trees that say the same to a reader.

A reader knows some of the members of an object, finds them by their names and passes over the
others. Two trees are alike for it if what it knows of them is the same up to the order of the
members, `Tree.Alike`. Then it finds alike trees under every name that it knows, provided that no
object has a key twice: `Tree.Alike.object`. -/
namespace Provision.Json

/-! ### Both or neither -/

section Both

variable {α β : Type} {R S : α → β → Prop} {o : Option α} {o' : Option β}

theorem Option.Rel.imp (h : Option.Rel R o o')
    (himp : ∀ a b, o = some a → o' = some b → R a b → S a b) : Option.Rel S o o' := by
  cases h with
  | none => exact .none
  | some h => exact .some (himp _ _ rfl rfl h)

theorem Option.Rel.swap (h : Option.Rel R o o') : Option.Rel (fun b a => R a b) o' o := by
  cases h with
  | none => exact .none
  | some h => exact .some h

theorem Option.Rel.exists_of_left {a : α} (h : Option.Rel R (some a) o') :
    ∃ b, o' = some b ∧ R a b := by
  cases h with
  | some h => exact ⟨_, rfl, h⟩

theorem Option.Rel.of_map {γ δ : Type} {R : γ → δ → Prop} {f : α → γ} {g : β → δ}
    (h : Option.Rel R (o.map f) (o'.map g)) : Option.Rel (fun a b => R (f a) (g b)) o o' := by
  cases o <;> cases o' <;> rcases h with h | _
  · exact .none
  · exact .some h

end Both

/-! ### Objects without repetitions -/

def Members.keys : Members → List String
  | .stop _ => []
  | .more (.ok key) _ rest => key :: rest.keys
  | .more (.error _) _ rest => rest.keys

mutual

/-- No object has a key twice. -/
def Tree.distinct : Tree → Bool
  | .array items => items.distinct
  | .object members => decide members.keys.Nodup && members.distinct
  | _ => true

def Items.distinct : Items → Bool
  | .stop _ => true
  | .more item rest => item.distinct && rest.distinct

def Members.distinct : Members → Bool
  | .stop _ => true
  | .more _ value rest => value.distinct && rest.distinct

end

theorem Members.keys_forget : (members : Members) → members.forget.keys = members.keys
  | .stop _ => rfl
  | .more (.ok key) _ rest => congrArg (key :: ·) (Members.keys_forget rest)
  | .more (.error _) _ rest => Members.keys_forget rest

mutual

theorem Tree.distinct_forget : (tree : Tree) → tree.forget.distinct = tree.distinct
  | .array items => Items.distinct_forget items
  | .object members => by
    rw [Tree.forget, Tree.distinct, Tree.distinct, Members.keys_forget,
      Members.distinct_forget members]
  | .null | .bool _ | .number _ | .string _ | .broken _ _ _ => rfl

theorem Items.distinct_forget : (items : Items) → items.forget.distinct = items.distinct
  | .stop _ => rfl
  | .more item rest => by
    rw [Items.forget, Items.distinct, Items.distinct, Tree.distinct_forget item,
      Items.distinct_forget rest]

theorem Members.distinct_forget : (members : Members) →
    members.forget.distinct = members.distinct
  | .stop _ => rfl
  | .more _ value rest => by
    rw [Members.forget, Members.distinct, Members.distinct, Tree.distinct_forget value,
      Members.distinct_forget rest]

end

theorem Tree.distinct_object {members : Members} (h : (Tree.object members).distinct = true) :
    members.keys.Nodup ∧ members.distinct = true := by
  simpa [Tree.distinct] using h

theorem Members.all_distinct : (members : Members) → members.distinct = true →
    members.All fun tree => tree.distinct = true
  | .stop _, _ => trivial
  | .more _ _ rest, h => by
    obtain ⟨hvalue, hrest⟩ := (Bool.and_eq_true ..).mp h
    exact ⟨hvalue, all_distinct rest hrest⟩

theorem Members.All.last? {P : Tree → Prop} {name : String} {tree : Tree} : (members : Members) →
    members.All P → members.last? name = some tree → P tree
  | .stop _, _, h => by cases h
  | .more (.error _) _ rest, hall, h => last? rest hall.2 h
  | .more (.ok key) value rest, hall, h => by
    rw [Members.last?] at h
    cases hrest : rest.last? name with
    | some other =>
      rw [hrest] at h
      cases h
      exact last? rest hall.2 hrest
    | none =>
      rw [hrest, Option.none_or] at h
      split at h
      · cases h
        exact hall.1
      · cases h

theorem Members.last?_eq_none {name : String} : (members : Members) → name ∉ members.keys →
    members.last? name = none
  | .stop _, _ => rfl
  | .more (.error _) _ rest, h => last?_eq_none rest h
  | .more (.ok key) value rest, h => by
    rw [Members.keys, List.mem_cons, not_or] at h
    rw [Members.last?, last?_eq_none rest h.2, if_neg (Ne.symm h.1)]
    rfl

/-! ### What is known of a tree -/

/-- What a reader knows of a tree. -/
inductive Shape
  /-- Everything. -/
  | whole
  /-- In an object all the keys, and so much of each value. -/
  | map (value : Shape)
  /-- In an object the members with these names, in a list the items in their places. -/
  | record (fields : List (String × Shape))

/-- What is known of the member with a name, if it is known. -/
def Shape.member : Shape → String → Option Shape
  | .whole, _ => some .whole
  | .map value, _ => some value
  | .record fields, name => Dictionary.find? name fields

/-- What is known of the items of a list, one after the other. All is known of the others. -/
def Shape.items : Shape → List Shape
  | .record fields => fields.map Prod.snd
  | _ => []

mutual

/-- The tree without what is not known of it, and without places in the text. -/
def Tree.known : Shape → Tree → Tree
  | shape, .array items => .array (items.known shape.items)
  | shape, .object members => .object (members.known shape.member)
  | _, .broken fault passing _ => .broken fault passing ⟨0, []⟩
  | _, tree => tree

def Items.known : List Shape → Items → Items
  | _, .stop how => .stop how
  | shapes, .more item rest => .more (item.known (shapes.headD .whole)) (rest.known shapes.tail)

def Members.known : (String → Option Shape) → Members → Members
  | _, .stop how => .stop how
  | member, .more (.error f) value rest => .more (.error f) (value.known .whole) (rest.known member)
  | member, .more (.ok key) value rest =>
    match member key with
    | some shape => .more (.ok key) (value.known shape) (rest.known member)
    | none => rest.known member

end

mutual

theorem Tree.known_forget : (shape : Shape) → (tree : Tree) →
    tree.forget.known shape = tree.known shape
  | shape, .array items => by rw [Tree.forget, Tree.known, Tree.known, Items.known_forget]
  | shape, .object members => by rw [Tree.forget, Tree.known, Tree.known, Members.known_forget]
  | _, .null | _, .bool _ | _, .number _ | _, .string _ | _, .broken _ _ _ => rfl

theorem Items.known_forget : (shapes : List Shape) → (items : Items) →
    items.forget.known shapes = items.known shapes
  | _, .stop _ => rfl
  | shapes, .more item rest => by
    rw [Items.forget, Items.known, Items.known, Tree.known_forget, Items.known_forget]

theorem Members.known_forget : (member : String → Option Shape) → (members : Members) →
    members.forget.known member = members.known member
  | _, .stop _ => rfl
  | member, .more (.error _) value rest => by
    rw [Members.forget, Members.known, Members.known, Tree.known_forget, Members.known_forget]
  | member, .more (.ok _) value rest => by
    simp only [Members.forget, Members.known, Tree.known_forget, Members.known_forget]

end

theorem Members.keys_known (member : String → Option Shape) : (members : Members) →
    (members.known member).keys.Sublist members.keys
  | .stop _ => .slnil
  | .more (.error _) _ rest => Members.keys_known member rest
  | .more (.ok key) _ rest => by
    rw [Members.known]
    split
    · exact (Members.keys_known member rest).cons_cons key
    · exact (Members.keys_known member rest).cons key

/-- What is found among the members that are known. -/
theorem Members.last?_known {member : String → Option Shape} {name : String} {shape : Shape}
    (h : member name = some shape) : (members : Members) →
      (members.known member).last? name = (members.last? name).map (Tree.known shape)
  | .stop _ => rfl
  | .more (.error _) _ rest => last?_known h rest
  | .more (.ok key) value rest => by
    have hrest := last?_known h rest
    rw [Members.known, Members.last?, Option.map_or]
    by_cases hkey : key = name
    · subst hkey
      rw [h]
      simp [Members.last?, hrest]
    · cases member key <;> simp [Members.last?, hrest, hkey]

/-! ### The order of members -/

/-- The ways to take one member out of an object, each with what is left. -/
def Members.picks : Members → List (Except Fault String × Tree × Members)
  | .stop _ => []
  | .more key value rest =>
    (key, value, rest) :: rest.picks.map fun pick => (pick.1, pick.2.1, .more key value pick.2.2)

def Members.isStop (how : ObjectEnd) : Members → Bool
  | .stop other => decide (other = how)
  | .more _ _ _ => false

mutual

/-- The same tree, but the members of each object may come in another order. -/
def Tree.reordered : Tree → Tree → Bool
  | .null, .null => true
  | .bool value, .bool other => decide (other = value)
  | .number n, .number other => decide (other = n)
  | .string value, .string other => decide (other = value)
  | .array items, .array others => items.reordered others
  | .object members, .object others => members.reordered others
  | .broken fault passing reach, .broken f p r => decide (f = fault ∧ p = passing ∧ r = reach)
  | _, _ => false

def Items.reordered : Items → Items → Bool
  | .stop how, .stop other => decide (other = how)
  | .more item rest, .more other back => item.reordered other && rest.reordered back
  | _, _ => false

/-- The first member is one of the others, and so on with what is left. -/
def Members.reordered : Members → Members → Bool
  | .stop how, others => others.isStop how
  | .more key value rest, others => others.picks.any fun pick =>
    decide (pick.1 = key) && value.reordered pick.2.1 && rest.reordered pick.2.2

end

theorem Members.mem_picks {key : Except Fault String} {value : Tree} {left : Members} :
    (members : Members) → (key, value, left) ∈ members.picks → ∃ front, ∃ back : Members,
      members = (Members.more key value back).prepend front ∧ left = back.prepend front
  | .stop _, h => by cases h
  | .more first other rest, h => by
    rcases List.mem_cons.mp h with he | h
    · cases he
      exact ⟨[], left, rfl, rfl⟩
    · obtain ⟨pick, hpick, he⟩ := List.mem_map.mp h
      cases he
      obtain ⟨front, back, hmembers, hleft⟩ := mem_picks rest hpick
      exact ⟨(first, other) :: front, back, congrArg (Members.more first other) hmembers,
        congrArg (Members.more first other) hleft⟩

/-- The first member stands somewhere among the others. -/
theorem Members.reordered_more {key : Except Fault String} {value : Tree} {rest others : Members}
    (h : (Members.more key value rest).reordered others = true) : ∃ front other, ∃ back : Members,
      others = (Members.more key other back).prepend front ∧ value.reordered other = true ∧
        rest.reordered (back.prepend front) = true := by
  rw [Members.reordered, List.any_eq_true] at h
  obtain ⟨⟨first, other, left⟩, hpick, hsame⟩ := h
  simp only [Bool.and_eq_true, decide_eq_true_eq] at hsame
  obtain ⟨⟨rfl, hvalue⟩, hrest⟩ := hsame
  obtain ⟨front, back, rfl, rfl⟩ := mem_picks others hpick
  exact ⟨front, other, back, rfl, hvalue, hrest⟩

/-- The keys of members in front. -/
theorem Members.keys_prepend (members : Members) (front : List (Except Fault String × Tree)) :
    (members.prepend front).keys = front.filterMap (·.1.toOption) ++ members.keys := by
  induction front with
  | nil => rfl
  | cons entry front ih =>
    obtain ⟨key, value⟩ := entry
    cases key with
    | ok key => exact congrArg (key :: ·) ih
    | error f => exact ih

theorem Members.nodup_prepend {key : String} {value : Tree} {back : Members}
    {front : List (Except Fault String × Tree)} :
    ((Members.more (.ok key) value back).prepend front).keys.Nodup ↔
      key ∉ (back.prepend front).keys ∧ (back.prepend front).keys.Nodup := by
  rw [keys_prepend, keys_prepend, keys, List.nodup_middle, List.nodup_cons]

/-- Where a member stands among others makes no difference. -/
theorem Members.last?_prepend {key : String} {value : Tree} {back : Members}
    {front : List (Except Fault String × Tree)} (absent : key ∉ (back.prepend front).keys)
    (name : String) : ((Members.more (.ok key) value back).prepend front).last? name =
      if key = name then some value else (back.prepend front).last? name := by
  induction front with
  | nil =>
    show (back.last? name).or (if key = name then some value else none) = _
    split
    · next hkey =>
      rw [last?_eq_none back (hkey ▸ absent), Option.none_or]
    · exact Option.or_none
  | cons entry front ih =>
    obtain ⟨first, other⟩ := entry
    cases first with
    | error f => exact ih absent
    | ok first =>
      have habsent : key ≠ first ∧ key ∉ (back.prepend front).keys :=
        not_or.mp (mt List.mem_cons.mpr absent)
      show (((Members.more (.ok key) value back).prepend front).last? name).or
        (if first = name then some other else none) = if key = name then some value else
          ((back.prepend front).last? name).or (if first = name then some other else none)
      rw [ih habsent.2]
      split <;> rfl

/-- Under each name stands the same. -/
theorem Members.last?_reordered (name : String) : (members : Members) → ∀ {others : Members},
    members.reordered others = true → members.keys.Nodup → others.keys.Nodup →
      Option.Rel (fun tree other => tree.reordered other = true)
        (members.last? name) (others.last? name)
  | .stop how, others, h, _, _ => by
    cases others with
    | stop other => exact .none
    | more _ _ _ => cases h
  | .more (.error f) value rest, others, h, hdistinct, hothers => by
    obtain ⟨front, other, back, rfl, -, hrest⟩ := reordered_more h
    have hkeys : ((Members.more (.error f) other back).prepend front).keys =
        (back.prepend front).keys := by
      rw [keys_prepend, keys_prepend, keys]
    have hlast : ((Members.more (.error f) other back).prepend front).last? name =
        (back.prepend front).last? name := by
      clear h hrest hkeys hothers
      induction front with
      | nil => rfl
      | cons entry front ih =>
        obtain ⟨first | first, tree⟩ := entry
        · exact ih
        · exact congrArg (Option.or · _) ih
    rw [hlast]
    exact last?_reordered name rest hrest hdistinct (hkeys ▸ hothers)
  | .more (.ok key) value rest, others, h, hdistinct, hothers => by
    obtain ⟨front, other, back, rfl, hvalue, hrest⟩ := reordered_more h
    obtain ⟨habsent, hdistinct⟩ := List.nodup_cons.mp hdistinct
    obtain ⟨habsent', hothers⟩ := nodup_prepend.mp hothers
    have hfound := last?_reordered name rest hrest hdistinct hothers
    rw [Members.last?, last?_prepend habsent']
    by_cases hkey : key = name
    · subst hkey
      rw [last?_eq_none rest habsent, if_pos rfl, if_pos rfl]
      exact .some hvalue
    · rw [if_neg hkey, if_neg hkey, Option.or_none]
      exact hfound

/-! ### Alike for a reader -/

/-- What is known of the trees is the same but for the order of members, and no key comes twice. -/
structure Tree.Alike (shape : Shape) (tree other : Tree) : Prop where
  distinct : tree.distinct = true
  other_distinct : other.distinct = true
  reordered : (tree.known shape).reordered (other.known shape) = true

/-- The same for the items of lists, each with a shape of its own. -/
structure Items.Alike (shapes : List Shape) (items others : Items) : Prop where
  distinct : items.distinct = true
  other_distinct : others.distinct = true
  reordered : (items.known shapes).reordered (others.known shapes) = true

namespace Tree.Alike

variable {shape : Shape} {tree other : Tree}

theorem of_forget (h : tree.Alike shape other) {again further : Tree}
    (hagain : again.forget = tree.forget) (hfurther : further.forget = other.forget) :
    again.Alike shape further where
  distinct := by
    rw [← Tree.distinct_forget, hagain, Tree.distinct_forget]
    exact h.distinct
  other_distinct := by
    rw [← Tree.distinct_forget, hfurther, Tree.distinct_forget]
    exact h.other_distinct
  reordered := by
    rw [← Tree.known_forget, hagain, Tree.known_forget, ← Tree.known_forget shape further, hfurther,
      Tree.known_forget]
    exact h.reordered

/-- Under each name that is known stand alike trees, or nothing in both objects. -/
theorem object {members : Members} (h : (Tree.object members).Alike shape other) :
    ∃ others, other = .object others ∧ ∀ name inner, shape.member name = some inner →
      Option.Rel (Tree.Alike inner) (members.last? name) (others.last? name) := by
  cases other with
  | object others =>
    refine ⟨others, rfl, fun name inner hinner => ?_⟩
    obtain ⟨hkeys, hdistinct⟩ := Tree.distinct_object h.distinct
    obtain ⟨hkeys', hdistinct'⟩ := Tree.distinct_object h.other_distinct
    have hfound := Members.last?_reordered name _ h.reordered
      (hkeys.sublist (Members.keys_known _ members)) (hkeys'.sublist (Members.keys_known _ others))
    rw [Members.last?_known hinner, Members.last?_known hinner] at hfound
    exact Option.Rel.imp (Option.Rel.of_map hfound) fun tree other hfirst hsecond hsame =>
      ⟨Members.All.last? members (Members.all_distinct members hdistinct) hfirst,
        Members.All.last? others (Members.all_distinct others hdistinct') hsecond, hsame⟩
  | _ => cases h.reordered

theorem array {items : Items} (h : (Tree.array items).Alike shape other) :
    ∃ others, other = .array others ∧ items.Alike shape.items others := by
  cases other with
  | array others => exact ⟨others, rfl, h.distinct, h.other_distinct, h.reordered⟩
  | _ => cases h.reordered

/-- Alike trees are of one kind. -/
theorem kind (h : tree.Alike shape other) :
    other.isPlain = tree.isPlain ∧ other.isNull = tree.isNull := by
  have hreordered := h.reordered
  cases tree <;> cases other <;> first | exact ⟨rfl, rfl⟩ | cases hreordered

theorem eq_of_isPlain (h : tree.Alike shape other) (plain : tree.isPlain = true) :
    other = tree := by
  have hreordered := h.reordered
  cases tree with
  | array _ => cases plain
  | object _ => cases plain
  | broken _ _ _ => cases plain
  | _ =>
    cases other with
    | array _ => cases hreordered
    | object _ => cases hreordered
    | broken _ _ _ => cases hreordered
    | _ => first | rfl | cases hreordered | exact congrArg _ (of_decide_eq_true hreordered)

end Tree.Alike

namespace Items.Alike

variable {shapes : List Shape}

theorem stop {how : ListEnd} {others : Items} (h : (Items.stop how).Alike shapes others) :
    others = .stop how := by
  cases others with
  | stop other => exact congrArg Items.stop (of_decide_eq_true h.reordered)
  | more item rest => cases h.reordered

theorem more {item : Tree} {rest others : Items} (h : (Items.more item rest).Alike shapes others) :
    ∃ other back, others = .more other back ∧ item.Alike (shapes.headD .whole) other ∧
      rest.Alike shapes.tail back := by
  cases others with
  | stop how => cases h.reordered
  | more other others =>
    obtain ⟨hitem, hrest⟩ := (Bool.and_eq_true ..).mp h.distinct
    obtain ⟨hitem', hrest'⟩ := (Bool.and_eq_true ..).mp h.other_distinct
    obtain ⟨hsame, hsame'⟩ := (Bool.and_eq_true ..).mp h.reordered
    exact ⟨other, others, rfl, ⟨hitem, hitem', hsame⟩, ⟨hrest, hrest', hsame'⟩⟩

end Items.Alike

end Provision.Json
