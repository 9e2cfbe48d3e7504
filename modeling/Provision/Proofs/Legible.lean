import Provision.Proofs.Layouts
import Provision.Proofs.Nesting
import Provision.Proofs.Spanning

/-! Values that are read back when they are printed.

A number of double precision that has been read is one that the format has, so its own text is
read as such a number again. Nothing else in a value can stand in the way: `Legible.exists_reread`.
-/
namespace Provision.Json
open Text

/-- A number that the formats have. -/
def Num.Legible : Num → Prop
  | .float d => d.magnitude.Valid
  | .natural _ | .negative _ => True

/-- A value with such numbers in it. -/
def Legible (value : Json) : Prop := ∀ n ∈ value.numbers, n.Legible

theorem numbersOfItems_eq (items : List Json) :
    numbersOfItems items = items.flatMap numbers := by
  induction items with
  | nil => rfl
  | cons item rest ih => rw [numbersOfItems, ih, List.flatMap_cons]

theorem numbersOfMembers_eq (members : List (String × Json)) :
    numbersOfMembers members = members.flatMap fun member => member.2.numbers := by
  induction members with
  | nil => rfl
  | cons member rest ih =>
    obtain ⟨key, value⟩ := member
    rw [numbersOfMembers, ih, List.flatMap_cons]

theorem legible_array_iff {items : List Json} :
    (Json.array items).Legible ↔ ∀ item ∈ items, item.Legible := by
  rw [Legible, numbers, numbersOfItems_eq]
  exact List.forall_mem_flatMap

theorem legible_object_iff {members : Fields} :
    (Json.object members).Legible ↔ ∀ member ∈ members, member.2.Legible := by
  rw [Legible, numbers, numbersOfMembers_eq]
  exact List.forall_mem_flatMap

/-! ### Reading back -/

/-- A number is read back as it was, or both are numbers of double precision. -/
theorem Num.Legible.reread {n : Num} (h : n.Legible) :
    n.reread = some n ∨ ∃ d e, n = .float d ∧ n.reread = some (.float e) := by
  cases n with
  | natural value => exact .inl (reread_natural value)
  | negative below => exact .inl (reread_negative below)
  | float d =>
    obtain ⟨e, he⟩ := Json.exists_reread h
    exact .inr ⟨d, e, rfl, he⟩

mutual

theorem Legible.exists_reread : (value : Json) → value.Legible → ∃ again, value.reread = some again
  | .null, _ | .bool _, _ | .string _, _ => ⟨_, rfl⟩
  | .number n, h => by
    rcases Num.Legible.reread (h n (List.mem_singleton_self n)) with hsame | ⟨d, e, rfl, he⟩
    · exact ⟨.number n, by rw [reread, hsame]; rfl⟩
    · exact ⟨.number (.float e), by rw [reread, he]; rfl⟩
  | .array items, h => by
    obtain ⟨again, hagain⟩ := exists_rereadItems items (legible_array_iff.mp h)
    exact ⟨.array again, by rw [reread, hagain]; rfl⟩
  | .object members, h => by
    obtain ⟨again, hagain⟩ := exists_rereadMembers members (legible_object_iff.mp h)
    exact ⟨.object again, by rw [reread, hagain]; rfl⟩

theorem exists_rereadItems : (items : List Json) → (∀ item ∈ items, item.Legible) →
    ∃ again, rereadItems items = some again
  | [], _ => ⟨[], rfl⟩
  | item :: rest, h => by
    obtain ⟨first, hfirst⟩ := Legible.exists_reread item (h item (List.mem_cons_self ..))
    obtain ⟨others, hothers⟩ :=
      exists_rereadItems rest fun other ho => h other (List.mem_cons_of_mem _ ho)
    exact ⟨first :: others, by rw [rereadItems, hfirst, hothers]; rfl⟩

theorem exists_rereadMembers : (members : List (String × Json)) →
    (∀ member ∈ members, member.2.Legible) → ∃ again, rereadMembers members = some again
  | [], _ => ⟨[], rfl⟩
  | (key, value) :: rest, h => by
    obtain ⟨first, hfirst⟩ := Legible.exists_reread value (h (key, value) (List.mem_cons_self ..))
    obtain ⟨others, hothers⟩ :=
      exists_rereadMembers rest fun other ho => h other (List.mem_cons_of_mem _ ho)
    exact ⟨(key, first) :: others, by rw [rereadMembers, hfirst, hothers]; rfl⟩

end

/-! ### What has been read -/

theorem NumberText.float_legible {negative : Bool} {significand : Nat} {exponent : Int} {n : Num}
    (h : NumberText.float negative significand exponent = .ok n) : n.Legible := by
  unfold NumberText.float at h
  split at h
  · next hm =>
    cases h
    exact Magnitude.ofDecimal_valid hm
  · cases h

theorem NumberText.value_legible {number : NumberText} {n : Num} (h : number.value = .ok n) :
    n.Legible := by
  unfold NumberText.value at h
  dsimp only at h
  split at h
  · split at h
    · split at h
      · cases h
        trivial
      · exact float_legible h
    · cases h
      trivial
  · exact float_legible h

theorem Token.legible {text rest : Bytes} {tree : Tree} {depth : Nat} {value : Json}
    (h : Token text tree rest) (hvalue : tree.value depth = .ok value) : value.Legible := by
  have hnone : value.numbers = [] → value.Legible := by
    intro hnumbers n hn
    rw [hnumbers] at hn
    cases hn
  cases h with
  | nullWord =>
    cases hvalue
    exact hnone rfl
  | trueWord =>
    cases hvalue
    exact hnone rfl
  | falseWord =>
    cases hvalue
    exact hnone rfl
  | string hread =>
    unfold readString at hread
    dsimp only at hread
    split at hread
    · cases hread
      cases hvalue
      exact hnone rfl
    · obtain ⟨rfl, -⟩ := Prod.mk.inj hread
      cases hvalue
  | number hfirst hread =>
    unfold readNumber at hread
    split at hread
    · cases hread
    split at hread
    · next hnumber =>
      cases hread
      cases hvalue
      intro n hn
      obtain rfl := List.mem_singleton.mp hn
      exact NumberText.value_legible hnumber
    · cases hread
      cases hvalue

mutual

/-- What is read of a text is legible. -/
theorem Tree.Spans.legible {depth : Nat} : (tree : Tree) → ∀ {text rest : Bytes} {value : Json},
    tree.Spans text rest → tree.value depth = .ok value → value.Legible
  | .array items, text, rest, value, h, hvalue => by
    obtain ⟨inner, -, hitems⟩ := h
    obtain ⟨values, hvalues, ⟨⟩⟩ := bind_eq_ok_iff.mp hvalue
    obtain ⟨less, rfl, hvalues⟩ := deeper_eq_ok_iff.mp hvalues
    exact legible_array_iff.mpr (Items.Spans.legible items hitems hvalues)
  | .object members, text, rest, value, h, hvalue => by
    obtain ⟨inner, -, hmembers⟩ := h
    obtain ⟨fields, hfields, ⟨⟩⟩ := bind_eq_ok_iff.mp hvalue
    obtain ⟨less, rfl, hfields⟩ := deeper_eq_ok_iff.mp hfields
    exact legible_object_iff.mpr
      (Members.Spans.legible members hmembers (List.forall_mem_nil _) hfields)
  | .null, _, _, _, h, hvalue | .bool _, _, _, _, h, hvalue | .number _, _, _, _, h, hvalue
  | .string _, _, _, _, h, hvalue | .broken _ _ _, _, _, _, h, hvalue => Token.legible h hvalue

theorem Items.Spans.legible {depth : Nat} : (items : Items) → ∀ {first : Bool} {text rest : Bytes}
    {values : List Json}, items.Spans first text rest → items.values depth = .ok values →
      ∀ value ∈ values, value.Legible
  | .stop how, _, _, _, _, _, hvalues => by
    obtain ⟨_, -, ⟨⟩⟩ := bind_eq_ok_iff.mp hvalues
    exact fun _ hv => (nomatch hv)
  | .more item items, first, text, rest, values, h, hvalues => by
    obtain ⟨front, behind, -, hitem, hitems⟩ := h
    obtain ⟨value, hvalue, hvalues⟩ := bind_eq_ok_iff.mp hvalues
    obtain ⟨others, hothers, ⟨⟩⟩ := bind_eq_ok_iff.mp hvalues
    exact List.forall_mem_cons.mpr
      ⟨Tree.Spans.legible item hitem hvalue, Items.Spans.legible items hitems hothers⟩

theorem Members.Spans.legible {depth : Nat} : (members : Members) → ∀ {first : Bool}
    {text rest : Bytes} {fields result : Fields}, members.Spans first text rest →
      (∀ member ∈ fields, member.2.Legible) → members.fields depth fields = .ok result →
        ∀ member ∈ result, member.2.Legible
  | .stop how, _, _, _, _, _, _, hfields, hresult => by
    obtain ⟨_, -, ⟨⟩⟩ := bind_eq_ok_iff.mp hresult
    exact hfields
  | .more (.error f) _ _, _, _, _, _, _, _, _, hresult => by cases hresult
  | .more (.ok key) tree members, first, text, rest, fields, result, h, hfields, hresult => by
    obtain ⟨inner, behind, -, htree, hmembers⟩ := h
    obtain ⟨value, hvalue, hresult⟩ := bind_eq_ok_iff.mp hresult
    refine Members.Spans.legible members hmembers (fun member hm => ?_) hresult
    rcases Dictionary.mem_of_mem_insert hm with rfl | hm
    · exact Tree.Spans.legible tree htree hvalue
    · exact hfields member hm

end

end Provision.Json
