import Provision.Proofs.Quotes

/-! Literals among other text.

A literal that a reader has come to the end of is the same with any other text behind it, as long
as that begins with the same byte: `Token.moves`. Where a reader has given a literal up and goes on
all the same, it has stopped at its end or inside of a string, `Token.stops`. -/
namespace Provision.Json

/-! ### Strings -/

theorem hexValue?_plain {b : UInt8} {value : Nat} (h : hexValue? b = some value) :
    b ≠ '"'.toUInt8 ∧ b ≠ '\\'.toUInt8 := by
  have hquote : hexValue? '"'.toUInt8 = none := by decide
  have hescape : hexValue? '\\'.toUInt8 = none := by decide
  constructor
  · rintro rfl
    rw [hquote] at h
    cases h
  · rintro rfl
    rw [hescape] at h
    cases h

theorem codeUnit?_plain {w x y z : UInt8} {code : Nat} (h : codeUnit? w x y z = some code) :
    ∀ b ∈ [w, x, y, z], b ≠ '"'.toUInt8 ∧ b ≠ '\\'.toUInt8 := by
  simp only [codeUnit?, Option.bind_eq_bind, Option.bind_eq_some_iff] at h
  obtain ⟨_, hw, _, hx, _, hy, _, hz, -⟩ := h
  simp only [List.forall_mem_cons]
  exact ⟨hexValue?_plain hw, hexValue?_plain hx, hexValue?_plain hy, hexValue?_plain hz,
    fun _ h => (nomatch h)⟩

namespace StringText

/-- The first piece of a string, whatever comes behind it. -/
structure Opens (front : Bytes) (piece : Piece) : Prop where
  ne_nil : front ≠ []
  spot : Spot.inside.after front = some .inside
  split : ∀ tail, split (front ++ tail) = (StringText.split tail).cons piece tail

theorem opens_plain {b : UInt8} (hquote : b ≠ '"'.toUInt8) (hescape : b ≠ '\\'.toUInt8)
    (hcontrol : ¬ b < 0x20) : Opens [b] (.byte b) where
  ne_nil := by simp
  spot := by
    rw [Spot.after, Spot.next_inside hquote hescape]
    rfl
  split := fun tail => by
    rw [List.singleton_append, StringText.split.eq_def]
    simp only [if_neg hquote, if_neg hescape, if_neg hcontrol]

theorem opens_short {e b : UInt8} (hunit : e ≠ 'u'.toUInt8) (he : shortEscape? e = some b) :
    Opens ['\\'.toUInt8, e] (.byte b) where
  ne_nil := by simp
  spot := rfl
  split := fun tail => by
    rw [List.cons_append, List.singleton_append, StringText.split.eq_def]
    simp only [if_neg (show '\\'.toUInt8 ≠ '"'.toUInt8 by decide), if_true, if_neg hunit, he]

theorem opens_unit {w x y z : UInt8} {code : Nat} (hcode : codeUnit? w x y z = some code) :
    Opens ['\\'.toUInt8, 'u'.toUInt8, w, x, y, z] (.unit code) where
  ne_nil := by simp
  spot := by
    show Spot.inside.after [w, x, y, z] = _
    exact Spot.after_inside (codeUnit?_plain hcode)
  split := fun tail => by
    show StringText.split ('\\'.toUInt8 :: 'u'.toUInt8 :: w :: x :: y :: z :: tail) = _
    rw [StringText.split.eq_def]
    simp only [if_neg (show '\\'.toUInt8 ≠ '"'.toUInt8 by decide), if_true, hcode]

/-- A string goes wrong at its front, or it is over, or it begins with a piece. -/
theorem split_cases (text : Bytes) :
    (StringText.split text).how ≠ .closed ∨ (∃ rest, text = '"'.toUInt8 :: rest) ∨
      ∃ front piece rest, text = front ++ rest ∧ Opens front piece := by
  have hmark : '\\'.toUInt8 ≠ '"'.toUInt8 := by decide
  rw [StringText.split.eq_def]
  match text with
  | [] => exact .inl (fun h => nomatch h)
  | b :: text =>
    by_cases hquote : b = '"'.toUInt8
    · exact .inr (.inl ⟨text, by rw [hquote]⟩)
    by_cases hescape : b = '\\'.toUInt8
    · subst hescape
      match text with
      | [] =>
        simp only [if_neg hmark, if_true]
        exact .inl (fun h => nomatch h)
      | e :: text =>
        by_cases hunit : e = 'u'.toUInt8
        · subst hunit
          simp only [if_neg hmark, if_true]
          match text with
          | [] | [_] | [_, _] | [_, _, _] => exact .inl (fun h => nomatch h)
          | w :: x :: y :: z :: text =>
            dsimp only
            cases hcode : codeUnit? w x y z with
            | none => exact .inl (fun h => nomatch h)
            | some code => exact .inr (.inr ⟨_, _, text, rfl, opens_unit hcode⟩)
        · simp only [if_neg hmark, if_true, if_neg hunit]
          cases hshort : shortEscape? e with
          | none => exact .inl (fun h => nomatch h)
          | some c => exact .inr (.inr ⟨_, _, text, rfl, opens_short hunit hshort⟩)
    · by_cases hcontrol : b < 0x20
      · simp only [if_neg hquote, if_neg hescape, if_pos hcontrol]
        exact .inl (fun h => nomatch h)
      · exact .inr (.inr ⟨[b], _, text, rfl, opens_plain hquote hescape hcontrol⟩)

/-- A string that is closed is the same with other text behind it, but for what its pieces have
behind them. -/
def Again (string : StringText) (text rest : Bytes) : Prop :=
  ∃ pieces, StringText.split text = ⟨pieces, .closed, rest⟩ ∧
    pieces.map Prod.fst = string.pieces.map Prod.fst

/-- A string that is closed, and its pieces, each with what stands behind it up to the closing
quote. -/
theorem split_moves (text : Bytes) (h : (StringText.split text).how = .closed) :
    Moves .inside .outside text (StringText.split text).rest (StringText.split text).Again ∧
      ∀ piece ∈ (StringText.split text).pieces,
        Moves .inside .outside piece.2 (StringText.split text).rest fun _ _ => True := by
  rcases split_cases text with hwrong | ⟨rest, rfl⟩ | ⟨front, piece, rest, rfl, opens⟩
  · exact absurd h hwrong
  · have hsplit : ∀ rest, StringText.split ('"'.toUInt8 :: rest) = ⟨[], .closed, rest⟩ := by
      intro rest
      rw [StringText.split.eq_def]
      rfl
    rw [hsplit]
    refine ⟨(Moves.byte Spot.next_inside_quote rest).mono ?_, fun _ hp => (nomatch hp)⟩
    rintro _ tail rfl
    exact ⟨[], hsplit tail, rfl⟩
  · rw [opens.split] at h ⊢
    have hless : rest.length < (front ++ rest).length := by
      rw [List.length_append]
      have hfront := List.length_pos_iff.mpr opens.ne_nil
      omega
    obtain ⟨hrest, hpieces⟩ := split_moves rest h
    refine ⟨?_, fun p hp => ?_⟩
    · have hfront : Moves .inside .inside (front ++ rest) rest fun a c => a = front ++ c :=
        ⟨front, rfl, opens.spot, fun _ _ => rfl⟩
      refine (hfront.comp hrest).mono ?_
      rintro _ tail ⟨text, rfl, pieces, hsplit, hsame⟩
      refine ⟨(piece, text) :: pieces, ?_, ?_⟩
      · rw [opens.split, hsplit]
        rfl
      · rw [List.map_cons, hsame]
        rfl
    · rcases List.mem_cons.mp hp with rfl | hp
      · exact hrest.mono fun _ _ _ => trivial
      · exact hpieces p hp
termination_by text.length

/-- Where the content of a string fails: at the end of the string or behind one of its pieces. -/
theorem stop_of_contentOf {how : StringEnd} {rest stop : Bytes} {f : Fault}
    {pieces : List (Piece × Bytes)} (h : contentOf how rest pieces = .error (f, stop)) :
    stop = rest ∨ ∃ piece ∈ pieces, piece.2 = stop := by
  have hmore : ∀ first more : List (Piece × Bytes),
      (stop = rest ∨ ∃ piece ∈ more, piece.2 = stop) →
        stop = rest ∨ ∃ piece ∈ first ++ more, piece.2 = stop := by
    rintro first more (h | ⟨piece, hp, he⟩)
    · exact .inl h
    · exact .inr ⟨piece, List.mem_append_right _ hp, he⟩
  fun_induction contentOf how rest pieces with
  | case1 => cases h
  | case2 =>
    cases h
    exact .inl rfl
  | case3 b after more ih =>
    rw [map_eq_error_iff] at h
    exact hmore [_] more (ih h)
  | case4 =>
    cases h
    exact .inr ⟨_, List.mem_cons_self .., rfl⟩
  | case5 code after _ _ second after' more _ ih =>
    rw [map_eq_error_iff] at h
    exact hmore [_, _] more (ih h)
  | case6 | case7 =>
    cases h
    exact .inr ⟨_, List.mem_cons_of_mem _ (List.mem_cons_self ..), rfl⟩
  | case8 =>
    cases h
    exact .inl rfl
  | case9 code after more _ _ ih =>
    rw [map_eq_error_iff] at h
    exact hmore [_] more (ih h)

theorem exists_cons_of_map {piece : Piece} {after : Bytes} {more others : List (Piece × Bytes)}
    (h : others.map Prod.fst = ((piece, after) :: more).map Prod.fst) :
    ∃ after' others', others = (piece, after') :: others' ∧
      others'.map Prod.fst = more.map Prod.fst := by
  obtain ⟨⟨_, after'⟩, others', rfl, rfl, hmore⟩ := List.map_eq_cons_iff.mp h
  exact ⟨after', others', rfl, hmore⟩

/-- The content of a string, and the fault in it, depend on its pieces and not on the text behind
them. -/
theorem contentOf_again {how : StringEnd} {rest tail : Bytes}
    {pieces others : List (Piece × Bytes)} (h : others.map Prod.fst = pieces.map Prod.fst) :
    (contentOf how tail others).mapError Prod.fst =
      (contentOf how rest pieces).mapError Prod.fst := by
  fun_induction contentOf how rest pieces generalizing others with
  | case1 hnone =>
    rw [List.map_eq_nil_iff.mp h, contentOf.eq_def]
    simp only [hnone]
  | case2 f hsome =>
    rw [List.map_eq_nil_iff.mp h, contentOf.eq_def]
    simp only [hsome]
    rfl
  | case3 b after more ih =>
    obtain ⟨after', others, rfl, hmore⟩ := exists_cons_of_map h
    rw [contentOf.eq_def]
    simp only [mapError_map, ih hmore]
  | case4 code after more htrailing =>
    obtain ⟨after', others, rfl, -⟩ := exists_cons_of_map h
    rw [contentOf.eq_def]
    simp only [htrailing, if_true]
    rfl
  | case5 code after htrailing hleading second after' more hsecond ih =>
    obtain ⟨_, others, rfl, hnext⟩ := exists_cons_of_map h
    obtain ⟨_, others, rfl, hmore⟩ := exists_cons_of_map hnext
    rw [contentOf.eq_def]
    simp only [htrailing, hleading, hsecond, if_true, Bool.false_eq_true, if_false, mapError_map,
      ih hmore]
  | case6 code after htrailing hleading second after' more hsecond =>
    obtain ⟨_, others, rfl, hnext⟩ := exists_cons_of_map h
    obtain ⟨_, others, rfl, -⟩ := exists_cons_of_map hnext
    rw [contentOf.eq_def]
    simp only [htrailing, hleading, hsecond, if_true, Bool.false_eq_true, if_false]
    rfl
  | case7 code after htrailing hleading b after' more =>
    obtain ⟨_, others, rfl, hnext⟩ := exists_cons_of_map h
    obtain ⟨_, others, rfl, -⟩ := exists_cons_of_map hnext
    rw [contentOf.eq_def]
    simp only [htrailing, hleading, if_true, Bool.false_eq_true, if_false]
    rfl
  | case8 code after htrailing hleading =>
    obtain ⟨_, others, rfl, hnil⟩ := exists_cons_of_map h
    rw [List.map_eq_nil_iff.mp hnil, contentOf.eq_def]
    simp only [htrailing, hleading, if_true, Bool.false_eq_true, if_false]
    rfl
  | case9 code after more htrailing hleading ih =>
    obtain ⟨_, others, rfl, hmore⟩ := exists_cons_of_map h
    rw [contentOf.eq_def]
    simp only [htrailing, hleading, Bool.false_eq_true, if_false, mapError_map, ih hmore]

theorem closed_of_contentOf {how : StringEnd} {rest bytes : Bytes} {pieces : List (Piece × Bytes)}
    (h : contentOf how rest pieces = .ok bytes) : how.fault? = none := by
  fun_induction contentOf how rest pieces generalizing bytes with
  | case1 hnone => exact hnone
  | case3 _ _ _ ih | case5 _ _ _ _ _ _ _ _ ih | case9 _ _ _ _ _ ih =>
    obtain ⟨_, hmore, -⟩ := map_eq_ok_iff.mp h
    exact ih hmore
  | _ => cases h

theorem content_eq_error {string : StringText} {f : Fault} {stop : Bytes}
    (h : string.content = .error (f, stop)) :
    stop = string.rest ∨ ∃ piece ∈ string.pieces, piece.2 = stop := by
  rcases bind_eq_error_iff.mp h with h | ⟨bytes, -, h⟩
  · exact stop_of_contentOf h
  · split at h
    · cases h
    · cases h
      exact .inl rfl

theorem content_again {pieces others : List (Piece × Bytes)} {rest tail : Bytes}
    (h : others.map Prod.fst = pieces.map Prod.fst) :
    (content ⟨others, .closed, tail⟩).mapError Prod.fst =
      (content ⟨pieces, .closed, rest⟩).mapError Prod.fst := by
  have hcontent : (contentOf .closed tail others).mapError Prod.fst =
    (contentOf .closed rest pieces).mapError Prod.fst := contentOf_again h
  rw [content, content]
  dsimp only
  cases hbytes : contentOf .closed rest pieces with
  | ok bytes =>
    rw [hbytes] at hcontent
    cases hother : contentOf .closed tail others with
    | ok other =>
      rw [hother] at hcontent
      cases hcontent
      simp only [bind, Except.bind]
      cases Text.Utf8.decode? bytes <;> rfl
    | error problem =>
      rw [hother] at hcontent
      cases hcontent
  | error problem =>
    rw [hbytes] at hcontent
    cases hother : contentOf .closed tail others with
    | ok other =>
      rw [hother] at hcontent
      cases hcontent
    | error other =>
      rw [hother] at hcontent
      exact congrArg Except.error (Except.error.inj hcontent)

end StringText

/-! ### Trees without places -/

mutual

/-- The tree without what it says of the text. -/
def Tree.forget : Tree → Tree
  | .array items => .array items.forget
  | .object members => .object members.forget
  | .broken f passing _ => .broken f passing ⟨0, []⟩
  | tree => tree

def Items.forget : Items → Items
  | .stop how => .stop how
  | .more item rest => .more item.forget rest.forget

def Members.forget : Members → Members
  | .stop how => .stop how
  | .more key value rest => .more key value.forget rest.forget

end

theorem Tree.key_forget (tree : Tree) : tree.forget.key = tree.key := by
  cases tree <;> rfl

/-- A reader that has given a value up and goes on behind it is there, or it has stopped inside of a
string that ends there. -/
def Tree.Stops (text rest : Bytes) : Tree → Prop
  | .broken _ passing reach => passing = none ∧ reach.start = text.length ∧
    ((∃ digits, (∀ b ∈ digits, isDigit b = true) ∧ reach.rest = digits ++ rest) ∨
      Moves .inside .outside reach.rest rest fun _ _ => True)
  | .array _ | .object _ => False
  | _ => True

theorem readString_closed {text rest : Bytes} {tree : Tree}
    (h : readString text = (tree, some rest)) :
    (StringText.split text).how = .closed ∧ (StringText.split text).rest = rest := by
  have hclosed : ∀ how : StringEnd, how.fault? = none → how = .closed := by
    intro how hnone
    cases how <;> first | rfl | cases hnone
  rw [readString] at h
  dsimp only at h
  split at h
  · next value hvalue =>
    cases h
    obtain ⟨bytes, hbytes, -⟩ := bind_eq_ok_iff.mp hvalue
    exact ⟨hclosed _ (StringText.closed_of_contentOf hbytes), rfl⟩
  · split at h
    · next hnone =>
      cases h
      exact ⟨hclosed _ (Option.isNone_iff_eq_none.mp hnone), rfl⟩
    · cases h

/-- Two strings of the same pieces are read the same but for the places in them. -/
theorem readString_again {text other after tail : Bytes} {pieces others : List (Piece × Bytes)}
    (htext : StringText.split text = ⟨pieces, .closed, after⟩)
    (hother : StringText.split other = ⟨others, .closed, tail⟩)
    (h : others.map Prod.fst = pieces.map Prod.fst) :
    ∃ again, readString other = (again, some tail) ∧
      again.forget = (readString text).1.forget := by
  have hsame : (StringText.content ⟨others, .closed, tail⟩).mapError Prod.fst =
    (StringText.content ⟨pieces, .closed, after⟩).mapError Prod.fst := StringText.content_again h
  rw [readString, readString, htext, hother]
  dsimp only
  rcases hcontent : StringText.content ⟨pieces, .closed, after⟩ with ⟨f, stop⟩ | value <;>
    rcases hagain : StringText.content ⟨others, .closed, tail⟩ with ⟨g, stop'⟩ | value' <;>
      rw [hcontent, hagain] at hsame
  · obtain rfl : g = f := Except.error.inj hsame
    exact ⟨_, rfl, rfl⟩
  · cases hsame
  · cases hsame
  · obtain rfl : value' = value := Except.ok.inj hsame
    exact ⟨_, rfl, rfl⟩

/-- A string behind its opening quote, when a reader comes to its end. -/
theorem readString_moves {text rest : Bytes} {tree : Tree}
    (h : readString text = (tree, some rest)) :
    Moves .inside .outside text rest (fun a c => ∃ again,
        readString a = (again, some c) ∧ again.forget = tree.forget) ∧
      tree.Stops ('"'.toUInt8 :: text) rest := by
  obtain ⟨hhow, hrest⟩ := readString_closed h
  obtain ⟨hmoves, hpieces⟩ := StringText.split_moves text hhow
  obtain ⟨pieces, how, after, hsplit⟩ : ∃ pieces how after, StringText.split text =
    ⟨pieces, how, after⟩ := ⟨_, _, _, rfl⟩
  rw [hsplit] at hhow hrest hmoves hpieces
  subst hhow hrest
  dsimp only at hmoves hpieces
  refine ⟨hmoves.mono ?_, ?_⟩
  · rintro other tail ⟨others, hother, hmap⟩
    have hagain := readString_again hsplit hother hmap
    rw [h] at hagain
    exact hagain
  · rw [readString, hsplit] at h
    dsimp only at h
    cases hcontent : StringText.content ⟨pieces, .closed, after⟩ with
    | ok value =>
      rw [hcontent] at h
      cases h
      trivial
    | error problem =>
      obtain ⟨f, stop⟩ := problem
      rw [hcontent] at h
      cases h
      refine ⟨rfl, rfl, ?_⟩
      rcases StringText.content_eq_error hcontent with he | ⟨piece, hpiece, he⟩
      · exact .inl ⟨[], fun _ h => (nomatch h), he⟩
      · exact .inr (he ▸ hpieces piece hpiece)

/-! ### Numbers -/

theorem isBare_of_isDigit {b : UInt8} (h : isDigit b = true) : isBare b = true :=
  isBare_of_isNumberByte (by simp [isNumberByte, h])

theorem isDigit_of_someDigits {stop text digits rest : Bytes}
    (h : someDigits stop text = .ok (digits, rest)) : ∀ b ∈ digits, isDigit b = true := by
  have hsome := someDigits_toOption stop text
  rw [h] at hsome
  split at hsome
  · cases hsome
  · cases hsome
    exact fun b hb => List.mem_takeWhile_imp hb

theorem someDigits_moves {stop text digits rest : Bytes}
    (h : someDigits stop text = .ok (digits, rest)) :
    Moves .outside .outside text rest fun a c => ∀ stop, someDigits stop a = .ok (digits, c) := by
  have hsome := someDigits_toOption stop text
  rw [h] at hsome
  split at hsome
  · cases hsome
  next hne =>
  obtain ⟨rfl, rfl⟩ := Prod.mk.inj (Option.some.inj hsome)
  have hdigits : ∀ b ∈ text.takeWhile isDigit, isDigit b = true :=
    fun b hb => List.mem_takeWhile_imp hb
  refine ⟨text.takeWhile isDigit, List.takeWhile_append_dropWhile.symm,
    Spot.after_outside fun b hb => isBare_of_isDigit (hdigits b hb), fun tail htail stop => ?_⟩
  have hend : tail.takeWhile isDigit = [] ∧ tail.dropWhile isDigit = tail := by
    cases tail with
    | nil => exact ⟨rfl, rfl⟩
    | cons b tail =>
      have hnot := List.head?_dropWhile_not isDigit text
      rw [← htail] at hnot
      simp only [List.head?_cons] at hnot
      simp [hnot]
  refine eq_ok_of_toOption ?_
  rw [someDigits_toOption, List.takeWhile_append_of_pos hdigits,
    List.dropWhile_append_of_pos hdigits, hend.1, hend.2, List.append_nil, if_neg hne]

theorem splitWhole_moves {text digits rest : Bytes} (h : splitWhole text = .ok (digits, rest)) :
    Moves .outside .outside text rest fun a c => splitWhole a = .ok (digits, c) := by
  obtain ⟨⟨front, behind⟩, hdigits, h⟩ := bind_eq_ok_iff.mp h
  dsimp only at h
  split at h
  · cases h
  next hzero =>
  cases h
  refine (someDigits_moves hdigits).mono fun a c ha => ?_
  refine bind_eq_ok_iff.mpr ⟨(digits, c), ha _, ?_⟩
  dsimp only
  rw [if_neg hzero]
  rfl

/-- A reader that only looks at the next byte. -/
theorem Moves.here {spot : Spot} {text : Bytes} {p : Bytes → Bytes → Prop}
    (h : ∀ tail, tail.head? = text.head? → p tail tail) : Moves spot spot text text p :=
  ⟨[], rfl, rfl, h⟩

theorem splitFraction_moves {text digits rest : Bytes}
    (h : splitFraction text = .ok (digits, rest)) :
    Moves .outside .outside text rest fun a c => splitFraction a = .ok (digits, c) := by
  cases text with
  | nil =>
    cases h
    refine .here fun tail htail => ?_
    rw [List.head?_eq_none_iff.mp htail]
    rfl
  | cons b text =>
    rw [splitFraction] at h
    split at h
    · next hpoint =>
      have hbare : Spot.outside.next b = some .outside := by
        rw [hpoint]
        rfl
      refine ((Moves.byte hbare text).comp (someDigits_moves h)).mono ?_
      rintro _ c ⟨a, rfl, ha⟩
      rw [splitFraction, if_pos hpoint]
      exact ha a
    · next hpoint =>
      cases h
      refine .here fun tail htail => ?_
      obtain ⟨tail, rfl⟩ := List.head?_eq_some_iff.mp htail
      rw [splitFraction, if_neg hpoint]

theorem splitSign_moves (text : Bytes) :
    Moves .outside .outside text (splitSign text).2
      fun a c => splitSign a = ((splitSign text).1, c) := by
  cases text with
  | nil =>
    refine .here fun tail htail => ?_
    rw [List.head?_eq_none_iff.mp htail]
    rfl
  | cons b text =>
    rw [splitSign]
    split
    · next hminus =>
      subst hminus
      refine (Moves.byte rfl text).mono ?_
      rintro _ c rfl
      rfl
    split
    · next hminus hplus =>
      subst hplus
      refine (Moves.byte rfl text).mono ?_
      rintro _ c rfl
      rfl
    · next hminus hplus =>
      refine .here fun tail htail => ?_
      obtain ⟨tail, rfl⟩ := List.head?_eq_some_iff.mp htail
      rw [splitSign, if_neg hminus, if_neg hplus]

theorem splitExponent_moves {text rest : Bytes} {exponent : Option (Bool × Bytes)}
    (h : splitExponent text = .ok (exponent, rest)) :
    Moves .outside .outside text rest fun a c => splitExponent a = .ok (exponent, c) := by
  cases text with
  | nil =>
    cases h
    refine .here fun tail htail => ?_
    rw [List.head?_eq_none_iff.mp htail]
    rfl
  | cons b text =>
    rw [splitExponent] at h
    split at h
    · next hmark =>
      obtain ⟨⟨digits, behind⟩, hdigits, ⟨⟩⟩ := bind_eq_ok_iff.mp h
      have hbare : Spot.outside.next b = some .outside := by
        rcases hmark with rfl | rfl <;> rfl
      refine ((Moves.byte hbare text).comp
        ((splitSign_moves text).comp (someDigits_moves hdigits))).mono ?_
      rintro _ c ⟨a, rfl, d, hsign, hd⟩
      rw [splitExponent, if_pos hmark, hsign]
      exact bind_eq_ok_iff.mpr ⟨_, hd _, rfl⟩
    · next hmark =>
      cases h
      refine .here fun tail htail => ?_
      obtain ⟨tail, rfl⟩ := List.head?_eq_some_iff.mp htail
      rw [splitExponent, if_neg hmark]

theorem isDigit_of_splitExponent {text digits rest : Bytes} {negative : Bool}
    (h : splitExponent text = .ok (some (negative, digits), rest)) :
    ∀ b ∈ digits, isDigit b = true := by
  cases text with
  | nil => cases h
  | cons b text =>
    rw [splitExponent] at h
    split at h
    · obtain ⟨⟨front, behind⟩, hdigits, ⟨⟩⟩ := bind_eq_ok_iff.mp h
      exact isDigit_of_someDigits hdigits
    · cases h

theorem digitsBeyond_suffix (size : Nat) (digits : Bytes) :
    digitsBeyond size digits <:+ digits := by
  induction digits generalizing size with
  | nil => exact List.suffix_refl []
  | cons b digits ih =>
    rw [digitsBeyond]
    split
    · exact (ih _).trans (List.suffix_cons b digits)
    · exact List.suffix_cons b digits

namespace NumberText

/-- The parts of a number without its sign. -/
def Unsigned (number : NumberText) (text rest : Bytes) : Prop :=
  ∃ point mark, splitWhole text = .ok (number.whole, point) ∧
    splitFraction point = .ok (number.fraction, mark) ∧
    splitExponent mark = .ok (number.exponent, rest)

theorem Unsigned.moves {number : NumberText} {text rest : Bytes}
    (h : number.Unsigned text rest) : Moves .outside .outside text rest number.Unsigned := by
  obtain ⟨point, mark, hwhole, hfraction, hexponent⟩ := h
  refine ((splitWhole_moves hwhole).comp
    ((splitFraction_moves hfraction).comp (splitExponent_moves hexponent))).mono ?_
  rintro a c ⟨point, ha, mark, hpoint, hmark⟩
  exact ⟨point, mark, ha, hpoint, hmark⟩

theorem split_eq_ok_iff {text rest : Bytes} {number : NumberText} :
    split text = .ok (number, rest) ↔
      number.negative = decide (text.head? = some '-'.toUInt8) ∧
        number.Unsigned (if text.head? = some '-'.toUInt8 then text.tail else text) rest := by
  simp only [split, bind_eq_ok_iff, Unsigned]
  constructor
  · rintro ⟨⟨whole, point⟩, hwhole, ⟨fraction, mark⟩, hfraction, ⟨exponent, rest⟩, hexponent, ⟨⟩⟩
    exact ⟨rfl, point, mark, hwhole, hfraction, hexponent⟩
  · rintro ⟨hnegative, point, mark, hwhole, hfraction, hexponent⟩
    refine ⟨(_, point), hwhole, (_, mark), hfraction, (_, rest), hexponent, ?_⟩
    rw [← hnegative]
    rfl

/-- A number in a text. -/
theorem split_moves {b : UInt8} {text rest : Bytes} {number : NumberText}
    (h : split (b :: text) = .ok (number, rest)) :
    Moves .outside .outside (b :: text) rest fun a c => split a = .ok (number, c) := by
  obtain ⟨hnegative, hunsigned⟩ := split_eq_ok_iff.mp h
  rw [List.head?_cons] at hnegative hunsigned
  by_cases hminus : b = '-'.toUInt8
  · subst hminus
    refine ((Moves.byte rfl text).comp hunsigned.moves).mono ?_
    rintro _ c ⟨a, rfl, ha⟩
    exact split_eq_ok_iff.mpr ⟨hnegative, ha⟩
  · have hsign : ¬ some b = some '-'.toUInt8 := fun h => hminus (Option.some.inj h)
    rw [if_neg hsign] at hunsigned
    refine hunsigned.moves.head.mono ?_
    rintro a c ⟨hhead, ha⟩
    rw [List.head?_cons] at hhead
    refine split_eq_ok_iff.mpr ?_
    rw [hhead, if_neg hsign]
    exact ⟨hnegative, ha⟩

/-- The digits of a number that a reader has not looked at are digits. -/
theorem isDigit_of_mem_unread {text rest : Bytes} {number : NumberText}
    (h : split text = .ok (number, rest)) : ∀ b ∈ number.unread, isDigit b = true := by
  obtain ⟨-, point, mark, -, -, hexponent⟩ := split_eq_ok_iff.mp h
  rw [unread]
  split
  · exact fun _ h => (nomatch h)
  next negative digits hsome =>
  rw [hsome] at hexponent
  intro b hb
  exact isDigit_of_splitExponent hexponent b ((digitsBeyond_suffix 0 digits).subset hb)

end NumberText

/-- A number, when a reader comes to its end. -/
theorem readNumber_moves {b : UInt8} {text rest : Bytes} {tree : Tree}
    (h : readNumber (b :: text) = (tree, some rest)) :
    Moves .outside .outside (b :: text) rest (fun a c => ∃ again,
        readNumber a = (again, some c) ∧ again.forget = tree.forget) ∧
      tree.Stops (b :: text) rest := by
  rw [readNumber] at h
  split at h
  · cases h
  next number behind hsplit =>
  have hmoves := NumberText.split_moves hsplit
  cases hvalue : number.value with
  | ok value =>
    simp only [hvalue] at h
    cases h
    refine ⟨hmoves.mono fun a c ha => ?_, trivial⟩
    rw [readNumber, ha]
    simp only [hvalue]
    exact ⟨_, rfl, rfl⟩
  | error f =>
    simp only [hvalue] at h
    cases h
    refine ⟨hmoves.mono fun a c ha => ?_, rfl, rfl,
      .inl ⟨number.unread, NumberText.isDigit_of_mem_unread hsplit, rfl⟩⟩
    rw [readNumber, ha]
    simp only [hvalue]
    exact ⟨_, rfl, rfl⟩

theorem splitWhole_length {text digits rest : Bytes} (h : splitWhole text = .ok (digits, rest)) :
    rest.length < text.length := by
  obtain ⟨⟨front, behind⟩, hdigits, h⟩ := bind_eq_ok_iff.mp h
  dsimp only at h
  split at h
  · cases h
  cases h
  have hsome := someDigits_toOption text.tail text
  rw [hdigits] at hsome
  split at hsome
  · cases hsome
  next hne =>
  obtain ⟨-, rfl⟩ := Prod.mk.inj (Option.some.inj hsome)
  have hlength : (text.takeWhile isDigit).length + (text.dropWhile isDigit).length =
      text.length := by
    rw [← List.length_append, List.takeWhile_append_dropWhile]
  have hpos := List.length_pos_iff.mpr (List.isEmpty_eq_false_iff.mp (Bool.not_eq_true _ ▸ hne))
  omega

theorem NumberText.split_length {text rest : Bytes} {number : NumberText}
    (h : split text = .ok (number, rest)) : rest.length < text.length := by
  obtain ⟨-, point, mark, hwhole, hfraction, hexponent⟩ := split_eq_ok_iff.mp h
  have hpoint := splitWhole_length hwhole
  have hmark := (splitFraction_moves hfraction).suffix.length_le
  have hrest := (splitExponent_moves hexponent).suffix.length_le
  split at hpoint
  · rw [List.length_tail] at hpoint
    omega
  · omega

/-! ### All literals -/

/-- A word, a string or a number at the front of a text. -/
inductive Token : Bytes → Tree → Bytes → Prop
  | nullWord (rest : Bytes) :
    Token ('n'.toUInt8 :: 'u'.toUInt8 :: 'l'.toUInt8 :: 'l'.toUInt8 :: rest) .null rest
  | trueWord (rest : Bytes) :
    Token ('t'.toUInt8 :: 'r'.toUInt8 :: 'u'.toUInt8 :: 'e'.toUInt8 :: rest) (.bool true) rest
  | falseWord (rest : Bytes) :
    Token ('f'.toUInt8 :: 'a'.toUInt8 :: 'l'.toUInt8 :: 's'.toUInt8 :: 'e'.toUInt8 :: rest)
      (.bool false) rest
  | string {text : Bytes} {tree : Tree} {rest : Bytes} : readString text = (tree, some rest) →
    Token ('"'.toUInt8 :: text) tree rest
  | number {b : UInt8} {text : Bytes} {tree : Tree} {rest : Bytes} :
    (b = '-'.toUInt8 || isDigit b) = true → readNumber (b :: text) = (tree, some rest) →
      Token (b :: text) tree rest

namespace Token

variable {text rest : Bytes} {tree : Tree}

/-- A literal is the same with other text behind it. -/
theorem moves (h : Token text tree rest) :
    Moves .outside .outside text rest (fun a c => ∃ again, Token a again c ∧
      again.forget = tree.forget) := by
  cases h with
  | nullWord => exact ⟨[_, _, _, _], rfl, rfl, fun tail _ => ⟨_, .nullWord tail, rfl⟩⟩
  | trueWord => exact ⟨[_, _, _, _], rfl, rfl, fun tail _ => ⟨_, .trueWord tail, rfl⟩⟩
  | falseWord => exact ⟨[_, _, _, _, _], rfl, rfl, fun tail _ => ⟨_, .falseWord tail, rfl⟩⟩
  | string h =>
    refine ((Moves.byte Spot.next_outside_quote _).comp (readString_moves h).1).mono ?_
    rintro _ c ⟨a, rfl, again, hagain, hforget⟩
    exact ⟨again, .string hagain, hforget⟩
  | @number b text tree rest hb h =>
    refine (readNumber_moves h).1.head.mono ?_
    rintro a c ⟨hhead, again, hagain, hforget⟩
    obtain ⟨a, rfl⟩ := List.head?_eq_some_iff.mp hhead
    exact ⟨again, .number hb hagain, hforget⟩

theorem length (h : Token text tree rest) : rest.length < text.length := by
  cases h with
  | nullWord | trueWord | falseWord =>
    simp only [List.length_cons]
    omega
  | string h => exact Nat.lt_succ_of_le (readString_moves h).1.suffix.length_le
  | number _ h =>
    rw [readNumber] at h
    split at h
    · cases h
    next number behind hsplit =>
    have hlength := NumberText.split_length hsplit
    split at h <;> cases h <;> exact hlength

theorem stops (h : Token text tree rest) : tree.Stops text rest := by
  cases h with
  | nullWord | trueWord | falseWord => trivial
  | string h => exact (readString_moves h).2
  | number _ h => exact (readNumber_moves h).2

end Token

end Provision.Json
