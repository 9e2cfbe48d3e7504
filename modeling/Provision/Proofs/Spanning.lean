import Provision.Proofs.Rereading
import Provision.Proofs.Tokens

/-! Trees at the front of a text.

`Spans` says where a tree stands in a text, without the fuel of a reader: a list from its opening
bracket to its closing one, each item behind a comma but the first, and so on down to the
literals. A reader that comes to an end returns what stands there, `spans_of_readValue`, and it
returns whatever stands there, `readValue_of_spans`. -/
namespace Provision.Json

/-- What comes before an item or a member: blanks, and a comma unless it is the first one. -/
def Lead (first : Bool) (text front : Bytes) : Prop :=
  if first then skipBlank text = front
  else ∃ behind, skipBlank text = ','.toUInt8 :: behind ∧ skipBlank behind = front

/-- A key and its colon stand at the front of the text, with `inner` behind them. -/
def KeyAt (first : Bool) (text : Bytes) (key : Except Fault String) (inner : Bytes) : Prop :=
  ∃ body name colon, Lead first text ('"'.toUInt8 :: body) ∧
    readString body = (name, some colon) ∧ name.key = key ∧ skipBlank colon = ':'.toUInt8 :: inner

mutual

/-- The tree stands at the front of the text, with `rest` behind it. -/
def Tree.Spans : Tree → (text rest : Bytes) → Prop
  | .array items, text, rest =>
    ∃ inner, skipBlank text = '['.toUInt8 :: inner ∧ items.Spans true inner rest
  | .object members, text, rest =>
    ∃ inner, skipBlank text = '\x7b'.toUInt8 :: inner ∧ members.Spans true inner rest
  | tree, text, rest => Token (skipBlank text) tree rest

/-- So do the items up to the closing bracket. -/
def Items.Spans : Items → (first : Bool) → (text rest : Bytes) → Prop
  | .stop .closed, _, text, rest => skipBlank text = ']'.toUInt8 :: rest
  | .stop .danglingComma, first, text, rest => first = false ∧ Lead false text (']'.toUInt8 :: rest)
  | .stop _, _, _, _ => False
  | .more item items, first, text, rest => ∃ front behind, Lead first text front ∧
    item.Spans front behind ∧ items.Spans false behind rest

/-- So do the members up to the closing brace. -/
def Members.Spans : Members → (first : Bool) → (text rest : Bytes) → Prop
  | .stop .closed, _, text, rest => skipBlank text = '\x7d'.toUInt8 :: rest
  | .stop _, _, _, _ => False
  | .more key value members, first, text, rest => ∃ inner behind, KeyAt first text key inner ∧
    value.Spans inner behind ∧ members.Spans false behind rest

end

/-! ### What a reader returns stands there -/

theorem spans_of_readWord {tree : Tree} {whole text rest : Bytes} {letters : List Char}
    {result : Tree} (h : readWord tree whole letters text = (result, some rest)) :
    result = tree ∧ text = letters.map Char.toUInt8 ++ rest := by
  induction letters generalizing text with
  | nil =>
    cases h
    exact ⟨rfl, rfl⟩
  | cons letter letters ih =>
    cases text with
    | nil => cases h
    | cons b text =>
      rw [readWord] at h
      split at h
      · next hb =>
        obtain ⟨htree, htext⟩ := ih h
        exact ⟨htree, by rw [List.map_cons, List.cons_append, ← htext, hb]⟩
      · cases h

theorem Token.spans {text rest : Bytes} {tree : Tree} (h : Token (skipBlank text) tree rest) :
    tree.Spans text rest := by
  have hstops := h.stops
  cases tree with
  | array items => exact hstops.elim
  | object members => exact hstops.elim
  | _ => exact h

mutual

theorem spans_of_readValue : (fuel : Nat) → ∀ {text rest : Bytes} {tree : Tree},
    readValue fuel text = (tree, some rest) → tree.Spans text rest
  | 0, _, _, _, h => by cases h
  | fuel + 1, text, rest, tree, h => by
    rw [readValue] at h
    split at h
    · cases h
    next b inner hskip =>
    have htoken : Token (b :: inner) tree rest → tree.Spans text rest :=
      fun ht => Token.spans (hskip ▸ ht)
    split at h
    · next hb =>
      subst hb
      exact htoken (.string h)
    split at h
    · next hb =>
      subst hb
      obtain ⟨rfl, hrest⟩ := Prod.mk.inj h
      exact ⟨inner, hskip, spans_of_readItems fuel (Prod.ext rfl hrest)⟩
    split at h
    · next hb =>
      subst hb
      obtain ⟨rfl, hrest⟩ := Prod.mk.inj h
      exact ⟨inner, hskip, spans_of_readMembers fuel (Prod.ext rfl hrest)⟩
    split at h
    · next hb =>
      obtain ⟨rfl, rfl⟩ := spans_of_readWord h
      exact htoken (hb ▸ .nullWord rest)
    split at h
    · next hb =>
      obtain ⟨rfl, rfl⟩ := spans_of_readWord h
      exact htoken (hb ▸ .trueWord rest)
    split at h
    · next hb =>
      obtain ⟨rfl, rfl⟩ := spans_of_readWord h
      exact htoken (hb ▸ .falseWord rest)
    split at h
    · next hb => exact htoken (.number hb h)
    · cases h

theorem spans_of_readItems : (fuel : Nat) → ∀ {first : Bool} {text rest : Bytes} {items : Items},
    readItems fuel first text = (items, some rest) → items.Spans first text rest
  | 0, _, _, _, _, h => by cases h
  | fuel + 1, first, text, rest, items, h => by
    rw [readItems] at h
    split at h
    · cases h
    next b inner hskip =>
    split at h
    · next hb =>
      subst hb
      cases h
      exact hskip
    split at h
    · next hfirst =>
      subst hfirst
      split at h
      · cases h
      · exact spans_of_readItem fuel h true text hskip
    split at h
    · next hfirst hb =>
      obtain rfl := Bool.not_eq_true first ▸ hfirst
      subst hb
      split at h
      · cases h
      next b behind hbehind =>
      split at h
      · next hb =>
        cases h
        exact ⟨rfl, inner, hskip, hb ▸ hbehind⟩
      · exact spans_of_readItem fuel h false text ⟨inner, hskip, hbehind⟩
    · cases h

theorem spans_of_readItem : (fuel : Nat) → ∀ {front rest : Bytes} {items : Items},
    readItem fuel front = (items, some rest) → ∀ first text, Lead first text front →
      items.Spans first text rest
  | 0, _, _, _, h => by cases h
  | fuel + 1, front, rest, items, h => by
    intro first text hlead
    rw [readItem] at h
    split at h
    · cases h
    next item behind hitem =>
    obtain ⟨rfl, hrest⟩ := Prod.mk.inj h
    exact ⟨front, behind, hlead, spans_of_readValue fuel hitem,
      spans_of_readItems fuel (Prod.ext rfl hrest)⟩

theorem spans_of_readMembers : (fuel : Nat) → ∀ {first : Bool} {text rest : Bytes}
    {members : Members},
    readMembers fuel first text = (members, some rest) → members.Spans first text rest
  | 0, _, _, _, _, h => by cases h
  | fuel + 1, first, text, rest, members, h => by
    rw [readMembers] at h
    split at h
    · cases h
    next b inner hskip =>
    split at h
    · next hb =>
      subst hb
      cases h
      exact hskip
    split at h
    · next hfirst =>
      subst hfirst
      exact spans_of_readMember fuel h true text hskip
    split at h
    · next hfirst hb =>
      obtain rfl := Bool.not_eq_true first ▸ hfirst
      subst hb
      split at h
      · cases h
      next b behind hbehind =>
      split at h
      · cases h
      · exact spans_of_readMember fuel h false text ⟨inner, hskip, hbehind⟩
    · cases h

theorem spans_of_readMember : (fuel : Nat) → ∀ {front rest : Bytes} {members : Members},
    readMember fuel front = (members, some rest) → ∀ first text, Lead first text front →
      members.Spans first text rest
  | 0, _, _, _, h => by cases h
  | fuel + 1, front, rest, members, h => by
    intro first text hlead
    rw [readMember] at h
    split at h
    · next hquote =>
      obtain ⟨body, rfl⟩ := List.head?_eq_some_iff.mp hquote
      rw [List.tail_cons] at h
      split at h
      · cases h
      · cases h
      next name colon _ hname =>
      split at h
      · cases h
      next b inner hcolon =>
      split at h
      · next hb =>
        split at h
        · cases h
        next value behind hvalue =>
        obtain ⟨rfl, hrest⟩ := Prod.mk.inj h
        exact ⟨inner, behind, ⟨body, name, colon, hlead, hname, rfl, hb ▸ hcolon⟩,
          spans_of_readValue fuel hvalue, spans_of_readMembers fuel (Prod.ext rfl hrest)⟩
      · cases h
    · cases h

end

/-! ### How a tree begins, and how far it goes -/

theorem skipBlank_length (text : Bytes) : (skipBlank text).length ≤ text.length :=
  (skipBlank_moves text).suffix.length_le

@[simp] theorem skipBlank_skipBlank (text : Bytes) :
    skipBlank (skipBlank text) = skipBlank text := by
  have hagain : skipBlank ([] ++ skipBlank text) = skipBlank text :=
    skipBlank_append (fun _ h => (nomatch h)) (head?_skipBlank text)
  exact hagain

theorem Token.starts {text rest : Bytes} {tree : Tree} (h : Token text tree rest) :
    ∃ b inner, text = b :: inner ∧ StartsValue b := by
  cases h with
  | nullWord | trueWord | falseWord | string => exact ⟨_, _, rfl, by decide⟩
  | @number b text tree rest hb _ =>
    refine ⟨b, text, rfl, startsValue_of_isNumberByte ?_⟩
    rcases Bool.or_eq_true_iff.mp hb with hminus | hdigit
    · rw [of_decide_eq_true hminus]
      decide
    · simp [isNumberByte, hdigit]

theorem Tree.Spans.starts {tree : Tree} {text rest : Bytes} (h : tree.Spans text rest) :
    ∃ b inner, skipBlank text = b :: inner ∧ StartsValue b := by
  cases tree with
  | array items =>
    obtain ⟨inner, hopen, -⟩ := h
    exact ⟨_, inner, hopen, by decide⟩
  | object members =>
    obtain ⟨inner, hopen, -⟩ := h
    exact ⟨_, inner, hopen, by decide⟩
  | _ => exact Token.starts h

namespace Lead

variable {first : Bool} {text front : Bytes}

theorem skip (h : Lead first text front) : skipBlank front = front := by
  cases first with
  | true =>
    have hskip : skipBlank text = front := h
    rw [← hskip, skipBlank_skipBlank]
  | false =>
    obtain ⟨behind, -, rfl⟩ := h
    exact skipBlank_skipBlank behind

theorem length (h : Lead first text front) : front.length ≤ text.length := by
  have htext := skipBlank_length text
  cases first with
  | true =>
    have hskip : skipBlank text = front := h
    rw [← hskip]
    exact htext
  | false =>
    obtain ⟨behind, hcomma, rfl⟩ := h
    have hbehind := skipBlank_length behind
    rw [hcomma, List.length_cons] at htext
    omega

end Lead

theorem KeyAt.length {first : Bool} {text inner : Bytes} {key : Except Fault String}
    (h : KeyAt first text key inner) : inner.length < text.length := by
  obtain ⟨body, name, colon, hlead, hname, -, hcolon⟩ := h
  have hbody := hlead.length
  have hrest := (readString_moves hname).1.suffix.length_le
  have hinner := skipBlank_length colon
  rw [List.length_cons] at hbody
  rw [hcolon, List.length_cons] at hinner
  omega

/-! ### What stands there stands before any other text -/

theorem Lead.moves {first : Bool} {text front : Bytes} (h : Lead first text front) :
    Moves .outside .outside text front (Lead first) := by
  cases first with
  | true =>
    have hskip : skipBlank text = front := h
    subst hskip
    exact skipBlank_moves text
  | false =>
    obtain ⟨behind, hcomma, rfl⟩ := h
    exact (skipBlank_byte_moves hcomma rfl).comp (skipBlank_moves behind)

theorem KeyAt.moves {first : Bool} {text inner : Bytes} {key : Except Fault String}
    (h : KeyAt first text key inner) :
    Moves .outside .outside text inner fun a c => KeyAt first a key c := by
  obtain ⟨body, name, colon, hlead, hname, rfl, hcolon⟩ := h
  have hstring := (Moves.byte Spot.next_outside_quote body).comp (readString_moves hname).1
  refine ((hlead.moves.comp hstring).comp (skipBlank_byte_moves hcolon rfl)).mono ?_
  rintro a c ⟨colon, ⟨_, ha, body, rfl, again, hagain, hforget⟩, hcolon⟩
  refine ⟨body, again, colon, ha, hagain, ?_, hcolon⟩
  rw [← again.key_forget, hforget, name.key_forget]

theorem moves_of_token {text rest : Bytes} {tree : Tree} (h : Token (skipBlank text) tree rest) :
    Moves .outside .outside text rest fun a c => ∃ again : Tree,
      again.Spans a c ∧ again.forget = tree.forget := by
  refine ((skipBlank_moves text).comp h.moves).mono ?_
  rintro a c ⟨_, rfl, again, hagain, hforget⟩
  exact ⟨again, hagain.spans, hforget⟩

mutual

/-- A tree that stands before some text stands before any other that begins alike, but for its
places. -/
theorem Tree.Spans.moves : (tree : Tree) → ∀ {text rest : Bytes}, tree.Spans text rest →
    Moves .outside .outside text rest fun a c => ∃ again : Tree,
      again.Spans a c ∧ again.forget = tree.forget
  | .array items, text, rest, h => by
    obtain ⟨inner, hopen, hitems⟩ := h
    refine ((skipBlank_byte_moves hopen rfl).comp (Items.Spans.moves items hitems)).mono ?_
    rintro a c ⟨between, ha, again, hagain, hforget⟩
    exact ⟨.array again, ⟨between, ha, hagain⟩, congrArg Tree.array hforget⟩
  | .object members, text, rest, h => by
    obtain ⟨inner, hopen, hmembers⟩ := h
    refine ((skipBlank_byte_moves hopen rfl).comp (Members.Spans.moves members hmembers)).mono ?_
    rintro a c ⟨between, ha, again, hagain, hforget⟩
    exact ⟨.object again, ⟨between, ha, hagain⟩, congrArg Tree.object hforget⟩
  | .null, _, _, h | .bool _, _, _, h | .number _, _, _, h | .string _, _, _, h
  | .broken _ _ _, _, _, h => moves_of_token h

theorem Items.Spans.moves : (items : Items) → ∀ {first : Bool} {text rest : Bytes},
    items.Spans first text rest →
      Moves .outside .outside text rest fun a c => ∃ again : Items,
        again.Spans first a c ∧ again.forget = items.forget
  | .stop .closed, first, text, rest, h =>
    (skipBlank_byte_moves h rfl).mono fun a c ha => ⟨.stop .closed, ha, rfl⟩
  | .stop .danglingComma, first, text, rest, h => by
    obtain ⟨rfl, hlead⟩ := h
    refine (hlead.moves.comp (Moves.byte rfl rest)).mono ?_
    rintro a c ⟨_, ha, rfl⟩
    exact ⟨.stop .danglingComma, ⟨rfl, ha⟩, rfl⟩
  | .stop (.leadingComma _), _, _, _, h | .stop .textEnds, _, _, _, h
  | .stop .textEndsAfterComma, _, _, _, h | .stop .noComma, _, _, _, h => h.elim
  | .more item items, first, text, rest, h => by
    obtain ⟨front, behind, hlead, hitem, hitems⟩ := h
    refine (hlead.moves.comp
      ((Tree.Spans.moves item hitem).comp (Items.Spans.moves items hitems))).mono ?_
    rintro a c ⟨front, ha, behind, ⟨again, hagain, hforget⟩, others, hothers, hforgets⟩
    exact ⟨.more again others, ⟨front, behind, ha, hagain, hothers⟩,
      congrArg₂ Items.more hforget hforgets⟩

theorem Members.Spans.moves : (members : Members) → ∀ {first : Bool} {text rest : Bytes},
    members.Spans first text rest →
      Moves .outside .outside text rest fun a c => ∃ again : Members,
        again.Spans first a c ∧ again.forget = members.forget
  | .stop .closed, first, text, rest, h =>
    (skipBlank_byte_moves h rfl).mono fun a c ha => ⟨.stop .closed, ha, rfl⟩
  | .stop .danglingComma, _, _, _, h | .stop .textEnds, _, _, _, h
  | .stop .textEndsAfterComma, _, _, _, h | .stop .noComma, _, _, _, h | .stop .noKey, _, _, _, h
  | .stop (.brokenKey _ _), _, _, _, h => h.elim
  | .more key value members, first, text, rest, h => by
    obtain ⟨inner, behind, hkey, hvalue, hmembers⟩ := h
    refine (hkey.moves.comp
      ((Tree.Spans.moves value hvalue).comp (Members.Spans.moves members hmembers))).mono ?_
    rintro a c ⟨inner, ha, behind, ⟨again, hagain, hforget⟩, others, hothers, hforgets⟩
    exact ⟨.more key again others, ⟨inner, behind, ha, hagain, hothers⟩,
      congrArg₂ (Members.more key) hforget hforgets⟩

end

theorem Tree.Spans.length {tree : Tree} {text rest : Bytes} (h : tree.Spans text rest) :
    rest.length < text.length := by
  have htext := skipBlank_length text
  cases tree with
  | array items =>
    obtain ⟨inner, hopen, hitems⟩ := h
    have hrest := (Items.Spans.moves items hitems).suffix.length_le
    rw [hopen, List.length_cons] at htext
    omega
  | object members =>
    obtain ⟨inner, hopen, hmembers⟩ := h
    have hrest := (Members.Spans.moves members hmembers).suffix.length_le
    rw [hopen, List.length_cons] at htext
    omega
  | _ => exact Nat.lt_of_lt_of_le (Token.length h) htext

/-! ### A reader returns what stands there -/

theorem readValue_skipBlank (fuel : Nat) (text : Bytes) :
    readValue fuel (skipBlank text) = readValue fuel text := by
  cases fuel with
  | zero => rfl
  | succ fuel => rw [readValue, readValue, skipBlank_skipBlank]

theorem readValue_of_token {text rest : Bytes} {tree : Tree} (h : Token (skipBlank text) tree rest)
    (fuel : Nat) : readValue (fuel + 1) text = (tree, some rest) := by
  rw [← readValue_skipBlank]
  generalize skipBlank text = front at h
  cases h with
  | nullWord | trueWord | falseWord => rfl
  | @string text tree rest hread =>
    rw [readValue, skipBlank_cons (by decide)]
    simp only [if_true, hread]
  | @number b text tree rest hb hread =>
    have hnumber : isNumberByte b = true := by
      rcases Bool.or_eq_true_iff.mp hb with hminus | hdigit
      · rw [of_decide_eq_true hminus]
        decide
      · simp [isNumberByte, hdigit]
    rw [readValue_number hnumber, if_pos hb, hread]

/-- An item is read, and then what stands behind it. -/
theorem readItems_more {fuel : Nat} {first : Bool} {text front behind : Bytes} {item : Tree}
    (hlead : Lead first text front) (hitem : item.Spans front behind)
    (hread : readValue fuel front = (item, some behind)) :
    readItems (fuel + 2) first text =
      (.more item (readItems fuel false behind).1, (readItems fuel false behind).2) := by
  obtain ⟨b, inner, hfront, -, hclose, hcomma, -⟩ := hitem.starts
  rw [hlead.skip] at hfront
  have hmore : readItem (fuel + 1) (b :: inner) =
      (.more item (readItems fuel false behind).1, (readItems fuel false behind).2) := by
    rw [readItem, ← hfront, hread]
  rw [readItems]
  cases first with
  | true =>
    have hskip : skipBlank text = front := hlead
    rw [hskip, hfront]
    simp only [if_neg hclose, if_neg hcomma, if_true, hmore]
  | false =>
    obtain ⟨next, hskip, hnext⟩ := hlead
    rw [hskip]
    simp only [if_neg (show ','.toUInt8 ≠ ']'.toUInt8 by decide), if_true, Bool.false_eq_true,
      if_false, hnext, hfront, if_neg hclose, hmore]

/-- A member is read, and then what stands behind it. -/
theorem readMembers_more {fuel : Nat} {first : Bool} {text inner behind : Bytes}
    {key : Except Fault String} {value : Tree} (hkey : KeyAt first text key inner)
    (hread : readValue fuel inner = (value, some behind)) :
    readMembers (fuel + 2) first text =
      (.more key value (readMembers fuel false behind).1, (readMembers fuel false behind).2) := by
  obtain ⟨body, name, colon, hlead, hname, rfl, hcolon⟩ := hkey
  have hmore : readMember (fuel + 1) ('"'.toUInt8 :: body) =
      (.more name.key value (readMembers fuel false behind).1,
        (readMembers fuel false behind).2) := by
    have hstops := (readString_moves hname).2
    rw [readMember]
    simp only [List.head?_cons, if_true, List.tail_cons, hname]
    cases name with
    | broken f passing reach =>
      obtain ⟨rfl, -⟩ := hstops
      simp only [hcolon, if_true, hread]
    | _ => simp only [hcolon, if_true, hread]
  have hquote : '"'.toUInt8 ≠ '\x7d'.toUInt8 := by decide
  rw [readMembers]
  cases first with
  | true =>
    have hskip : skipBlank text = '"'.toUInt8 :: body := hlead
    rw [hskip]
    simp only [if_neg hquote, if_true, hmore]
  | false =>
    obtain ⟨next, hskip, hnext⟩ := hlead
    rw [hskip]
    simp only [if_neg (show ','.toUInt8 ≠ '\x7d'.toUInt8 by decide), if_true, Bool.false_eq_true,
      if_false, hnext, if_neg hquote, hmore]

theorem readItems_close {fuel : Nat} {text rest : Bytes} (first : Bool)
    (h : skipBlank text = ']'.toUInt8 :: rest) :
    readItems (fuel + 1) first text = (.stop .closed, some rest) := by
  rw [readItems, h]
  simp only [if_true]

theorem readItems_dangling {fuel : Nat} {text rest : Bytes}
    (h : Lead false text (']'.toUInt8 :: rest)) :
    readItems (fuel + 1) false text = (.stop .danglingComma, some rest) := by
  obtain ⟨behind, hcomma, hclose⟩ := h
  rw [readItems, hcomma]
  simp only [if_neg (show ','.toUInt8 ≠ ']'.toUInt8 by decide), Bool.false_eq_true, if_false,
    if_true, hclose]

theorem readMembers_close {fuel : Nat} {text rest : Bytes} (first : Bool)
    (h : skipBlank text = '\x7d'.toUInt8 :: rest) :
    readMembers (fuel + 1) first text = (.stop .closed, some rest) := by
  rw [readMembers, h]
  simp only [if_true]

mutual

/-- With enough fuel a reader returns the tree that stands in front. -/
theorem readValue_of_spans : (tree : Tree) → ∀ {text rest : Bytes} {fuel : Nat},
    tree.Spans text rest → 3 * text.length + 1 ≤ fuel → readValue fuel text = (tree, some rest)
  | .array items, text, rest, fuel, h, enough => by
    obtain ⟨inner, hopen, hitems⟩ := h
    have hlength := skipBlank_length text
    rw [hopen, List.length_cons] at hlength
    obtain ⟨fuel, rfl⟩ : ∃ less, fuel = less + 1 := ⟨fuel - 1, by omega⟩
    rw [← readValue_skipBlank, hopen, readValue_list,
      readItems_of_spans items hitems (show 3 * inner.length + 3 ≤ fuel by omega)]
  | .object members, text, rest, fuel, h, enough => by
    obtain ⟨inner, hopen, hmembers⟩ := h
    have hlength := skipBlank_length text
    rw [hopen, List.length_cons] at hlength
    obtain ⟨fuel, rfl⟩ : ∃ less, fuel = less + 1 := ⟨fuel - 1, by omega⟩
    rw [← readValue_skipBlank, hopen, readValue_object,
      readMembers_of_spans members hmembers (show 3 * inner.length + 3 ≤ fuel by omega)]
  | .null, _, _, fuel + 1, h, _ | .bool _, _, _, fuel + 1, h, _ | .number _, _, _, fuel + 1, h, _
  | .string _, _, _, fuel + 1, h, _ | .broken _ _ _, _, _, fuel + 1, h, _ =>
    readValue_of_token h fuel

theorem readItems_of_spans : (items : Items) → ∀ {first : Bool} {text rest : Bytes} {fuel : Nat},
    items.Spans first text rest → 3 * text.length + 3 ≤ fuel →
      readItems fuel first text = (items, some rest)
  | .stop .closed, first, _, _, fuel + 1, h, _ => readItems_close first h
  | .stop .danglingComma, _, _, _, fuel + 1, h, _ => by
    obtain ⟨rfl, hlead⟩ := h
    exact readItems_dangling hlead
  | .stop (.leadingComma _), _, _, _, _, h, _ | .stop .textEnds, _, _, _, _, h, _
  | .stop .textEndsAfterComma, _, _, _, _, h, _ | .stop .noComma, _, _, _, _, h, _ => h.elim
  | .more item items, first, text, rest, fuel, h, enough => by
    obtain ⟨front, behind, hlead, hitem, hitems⟩ := h
    have hfront := hlead.length
    have hbehind := hitem.length
    obtain ⟨fuel, rfl⟩ : ∃ less, fuel = less + 2 := ⟨fuel - 2, by omega⟩
    rw [readItems_more hlead hitem (readValue_of_spans item hitem (by omega)),
      readItems_of_spans items hitems (by omega)]

theorem readMembers_of_spans : (members : Members) → ∀ {first : Bool} {text rest : Bytes}
    {fuel : Nat}, members.Spans first text rest → 3 * text.length + 3 ≤ fuel →
      readMembers fuel first text = (members, some rest)
  | .stop .closed, first, _, _, fuel + 1, h, _ => readMembers_close first h
  | .stop .danglingComma, _, _, _, _, h, _ | .stop .textEnds, _, _, _, _, h, _
  | .stop .textEndsAfterComma, _, _, _, _, h, _ | .stop .noComma, _, _, _, _, h, _
  | .stop .noKey, _, _, _, _, h, _ | .stop (.brokenKey _ _), _, _, _, _, h, _ => h.elim
  | .more key value members, first, text, rest, fuel, h, enough => by
    obtain ⟨inner, behind, hkey, hvalue, hmembers⟩ := h
    have hinner := hkey.length
    have hbehind := hvalue.length
    obtain ⟨fuel, rfl⟩ : ∃ less, fuel = less + 2 := ⟨fuel - 2, by omega⟩
    rw [readMembers_more hkey (readValue_of_spans value hvalue (by omega)),
      readMembers_of_spans members hmembers (by omega)]

end

/-- What comes to an end is what stands in front. -/
theorem readTree_eq_some_iff {text rest : Bytes} {tree : Tree} :
    readTree text = (tree, some rest) ↔ tree.Spans text rest := by
  have enough : 3 * text.length + 1 ≤ fuelFor text := by
    unfold fuelFor
    omega
  exact ⟨spans_of_readValue _, fun h => readValue_of_spans tree h enough⟩

end Provision.Json
