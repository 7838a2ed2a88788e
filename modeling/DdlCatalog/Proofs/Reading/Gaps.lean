import DdlCatalog.Proofs.Composition.Lexing
import DdlCatalog.Proofs.Reading.Places

/-!
Gaps by bytes. Characters beyond ASCII are neither blanks nor parts of a comment's ends, so that the bytes show where
a gap ends, or that it does not.
-/

namespace DdlCatalog.Sql.Bytes

variable {text rest cs r item : List Char} {place : Nat} {c x : Char}

/-! ### Characters beyond ASCII -/

theorem ne_of_beyond (h : 128 ≤ c.toNat) (hx : x.toNat < 128) : c ≠ x := by
  rintro rfl
  omega

theorem not_le_of_beyond (h : 128 ≤ c.toNat) (hx : x.toNat < 128) : ¬ c ≤ x := by
  rw [Char.le_def, UInt32.le_iff_toNat_le]
  change ¬ c.toNat ≤ x.toNat
  omega

theorem isDigit_beyond (h : 128 ≤ c.toNat) : isDigit c = false := by
  rw [isDigit, decide_eq_false (not_le_of_beyond h (by decide : '9'.toNat < 128)), Bool.and_false]

theorem isRadixDigit_beyond (hexadecimal : Bool) (h : 128 ≤ c.toNat) : isRadixDigit hexadecimal c = false := by
  cases hexadecimal with
  | false =>
      simp only [isRadixDigit, isBitDigit, decide_eq_false (ne_of_beyond h (by decide : '0'.toNat < 128)),
        decide_eq_false (ne_of_beyond h (by decide : '1'.toNat < 128))]
      rfl
  | true =>
      simp only [isRadixDigit, isHexDigit, isDigit_beyond h,
        decide_eq_false (not_le_of_beyond h (by decide : 'f'.toNat < 128)),
        decide_eq_false (not_le_of_beyond h (by decide : 'F'.toNat < 128)), Bool.and_false]
      rfl

theorem isWordStart_beyond (h : 128 ≤ c.toNat) : isWordStart c = true := by
  rw [isWordStart, decide_eq_true h, Bool.or_true]

theorem isWordChar_beyond (h : 128 ≤ c.toNat) : isWordChar c = true := by
  rw [isWordChar, isWordStart_beyond h, Bool.true_or]

theorem isSpace_beyond (h : 128 ≤ c.toNat) : isSpace c = false := by
  rw [Bool.eq_false_iff]
  intro hc
  simp only [isSpace, Bool.or_eq_true, decide_eq_true_eq] at hc
  rcases hc with (((rfl | rfl) | rfl) | rfl) | rfl
  all_goals exact absurd h (by decide)

theorem uniform_of_beyond {p : Char → Bool} {b : Bool} (h : ∀ c, 128 ≤ c.toNat → p c = b) : Uniform p :=
  fun c d hc hd => (h c hc).trans (h d hd).symm

theorem uniform_isDigit : Uniform isDigit := uniform_of_beyond fun _ => isDigit_beyond

theorem uniform_isRadixDigit (hexadecimal : Bool) : Uniform (isRadixDigit hexadecimal) :=
  uniform_of_beyond fun _ => isRadixDigit_beyond hexadecimal

theorem uniform_isWordChar : Uniform isWordChar := uniform_of_beyond fun _ => isWordChar_beyond

theorem uniform_isSpace : Uniform isSpace := uniform_of_beyond fun _ => isSpace_beyond

theorem uniform_ne (hx : x.toNat < 128) : Uniform (· ≠ x) :=
  uniform_of_beyond fun _ hc => decide_eq_true (ne_of_beyond hc hx)

/-! ### Gaps -/

theorem blockComment?_cons (h : ¬ (c = '*' ∧ r.head? = some '/')) :
    blockComment? (c :: r) = (blockComment? r).map fun (body, rest) => (c :: body, rest) := by
  rw [blockComment?]
  rintro r' rfl rfl
  exact h ⟨rfl, rfl⟩

/-- The bytes of a character beyond ASCII end no comment. -/
theorem blockComment?_append_of_ne {bs : List Char} (h : ∀ b ∈ bs, b ≠ '*') (cs : List Char) :
    blockComment? (bs ++ cs) = (blockComment? cs).map fun (body, rest) => (bs ++ body, rest) := by
  induction bs with
  | nil =>
      rw [List.nil_append]
      cases blockComment? cs <;> rfl
  | cons b bs ih =>
      rw [List.cons_append, blockComment?_cons fun hends => h b List.mem_cons_self hends.1,
        ih fun d hd => h d (List.mem_cons_of_mem _ hd), Option.map_map]
      rfl

theorem head?_bytes (cs : List Char) : (bytes cs).head? = cs.head?.map leadByte := by
  cases cs with
  | nil => rfl
  | cons c r =>
      obtain ⟨more, hmore⟩ := charBytes_eq_cons c
      rw [bytes_cons, hmore]
      rfl

theorem blockComment?_bytes (cs : List Char) :
    blockComment? (bytes cs) = (blockComment? cs).map fun (body, rest) => (bytes body, bytes rest) := by
  fun_induction blockComment? cs with
  | case1 => rfl
  | case2 r => rfl
  | case3 c r hends ih =>
      have hcomment : blockComment? (bytes (c :: r)) =
          (blockComment? (bytes r)).map fun (body, rest) => (charBytes c ++ body, rest) := by
        rw [bytes_cons]
        rcases Nat.lt_or_ge c.toNat 128 with hc | hc
        · rw [charBytes_ascii hc]
          refine blockComment?_cons ?_
          rintro ⟨rfl, hslash⟩
          obtain ⟨d, hd, hlead⟩ := Option.map_eq_some_iff.1 ((head?_bytes r).symm.trans hslash)
          rw [leadByte_eq_iff (by decide)] at hlead
          obtain ⟨r', rfl⟩ := List.head?_eq_some_iff.1 hd
          exact hends r' rfl (by rw [hlead])
        · refine blockComment?_append_of_ne (fun b hb hstar => ?_) _
          have := le_of_mem_charBytes hc b hb
          rw [hstar] at this
          exact absurd this (by decide)
      rw [hcomment, ih, Option.map_map, Option.map_map]
      rfl

theorem passComment_spec (place : Nat) :
    match blockComment? ((bytes text).drop place) with
    | some (body, _) => passComment text place + 2 = place + body.length
    | none => (bytes text).length ≤ passComment text place + 1 := by
  fun_induction passComment text place with
  | case1 place hnone =>
    have hend := List.getElem?_eq_none_iff.1 hnone
    have hshort : blockComment? ((bytes text).drop place) = none := by
      have hlength : ((bytes text).drop place).length ≤ 1 := by rw [List.length_drop]; omega
      rcases Nat.le_one_iff_eq_zero_or_eq_one.1 hlength with hnone | hone
      · rw [List.length_eq_zero_iff.1 hnone]
        rfl
      · obtain ⟨b, hb⟩ := List.length_eq_one_iff.1 hone
        rw [hb, blockComment?_cons (by simp)]
        rfl
    rw [hshort]
    exact hend
  | case2 place d hd hends =>
    obtain ⟨hstar, rfl⟩ := hends
    obtain ⟨hlt, hplace⟩ := List.getElem?_eq_some_iff.1 hstar
    obtain ⟨hlt', hnext⟩ := List.getElem?_eq_some_iff.1 hd
    rw [List.drop_eq_getElem_cons hlt, List.drop_eq_getElem_cons hlt', hplace, hnext, blockComment?]
    rfl
  | case3 place d hd hnot ih =>
    obtain ⟨hlt', hnext⟩ := List.getElem?_eq_some_iff.1 hd
    have hlt : place < (bytes text).length := by omega
    have hcons : blockComment? ((bytes text).drop place) =
        (blockComment? ((bytes text).drop (place + 1))).map fun (body, rest) => ((bytes text)[place] :: body, rest) := by
      rw [List.drop_eq_getElem_cons hlt]
      refine blockComment?_cons ?_
      rintro ⟨hstar, hslash⟩
      rw [List.drop_eq_getElem_cons hlt', List.head?_cons, Option.some.injEq, hnext] at hslash
      exact hnot ⟨List.getElem?_eq_some_iff.2 ⟨hlt, hstar⟩, hslash⟩
    rw [hcons]
    cases hrest : blockComment? ((bytes text).drop (place + 1)) with
    | none => rwa [hrest] at ih
    | some found =>
        rw [hrest] at ih
        simp only [Option.map_some, List.length_cons]
        omega

/-- The end of a comment is found if it has one, and else the end of the text. -/
theorem Placed.passComment_spec (h : Placed text place rest) :
    match blockComment? rest with
    | some (body, _) => passComment text place + 2 = place + byteLength body
    | none => (bytes text).length ≤ passComment text place + 1 := by
  have hspec := @Bytes.passComment_spec text place
  rw [h.drop_bytes, blockComment?_bytes] at hspec
  cases hrest : blockComment? rest with
  | none => rwa [hrest] at hspec
  | some found =>
      rw [hrest] at hspec
      simpa using hspec

theorem Placed.passGap_nil (h : Placed text place []) : passGap text place = .ok place := by
  rw [passGap]
  split
  · rfl
  · rename_i hb
    cases h.byte?.symm.trans hb

theorem Placed.passGap_cons (h : Placed text place (c :: r)) : passGap text place =
    if isSpace c then passGap text (place + 1)
    else if (c = '-' ∧ r.head? = some '-') ∨ c = '#' then passGap text (passWhile text (· ≠ '\n') place)
    else if c = '/' ∧ r.head? = some '*' then
      if (bytes text).length ≤ passComment text (place + 2) + 1 then refuse (.unterminatedComment place)
      else passGap text (passComment text (place + 2) + 2)
    else .ok place := by
  rw [passGap]
  split
  · rename_i hb
    cases h.byte?.symm.trans hb
  · rename_i b hb
    obtain rfl : leadByte c = b := Option.some.inj (h.byte?.symm.trans hb)
    simp only [uniform_isSpace.leadByte_eq, h.pair_iff (x := '-') (y := '-') (by decide) (by decide),
      h.pair_iff (x := '/') (y := '*') (by decide) (by decide), leadByte_eq_iff (x := '#') (by decide), dite_eq_ite]

/-- One blank or comment is passed. -/
theorem Placed.passGap_item (h : Placed text place cs) (hitem : gapItem? cs = some (item, rest)) :
    passGap text place = passGap text (place + byteLength item) := by
  rw [gapItem?.eq_def] at hitem
  split at hitem
  · rename_i r
    cases hitem
    rw [h.passGap_cons, if_neg (by decide), if_pos (.inl ⟨rfl, rfl⟩), h.passWhile_eq (uniform_ne (by decide))]
    rfl
  · rename_i r
    cases hitem
    rw [h.passGap_cons, if_neg (by decide), if_pos (.inr rfl), h.passWhile_eq (uniform_ne (by decide))]
    rfl
  · rename_i r
    obtain ⟨⟨body, rest⟩, hbody, he⟩ := Option.map_eq_some_iff.1 hitem
    cases he
    have hopened : Placed text (place + 2) r := (h.tail_ascii (by decide)).tail_ascii (by decide)
    have hend := hopened.passComment_spec
    rw [hbody] at hend
    have hlength := hopened.le_length
    have hin := congrArg byteLength (blockComment?_append hbody)
    rw [byteLength_append] at hin
    rw [h.passGap_cons, if_neg (by decide), if_neg (by simp), if_pos ⟨rfl, rfl⟩, if_neg (by omega), hend]
    congr 1
    rw [byteLength_cons, byteLength_cons, utf8Size_ascii (by decide), utf8Size_ascii (by decide)]
    omega
  · rename_i c r _ _ _
    split at hitem
    · rename_i hspace
      cases hitem
      have hascii : c.toNat < 128 := by
        refine Nat.lt_of_not_le fun hc => ?_
        rw [isSpace_beyond hc] at hspace
        cases hspace
      rw [h.passGap_cons, if_pos hspace, byteLength_cons, byteLength_nil, utf8Size_ascii hascii]
    · cases hitem
  · cases hitem

/-- Where no blank and no complete comment stands, the gap ends. -/
theorem Placed.passGap_end (h : Placed text place cs) (hitem : gapItem? cs = none) (hending : ¬ Unending cs) :
    passGap text place = .ok place := by
  cases cs with
  | nil => exact h.passGap_nil
  | cons c r =>
      have hspace : ¬ isSpace c = true := fun hc => by
        rw [gapItem?_space hc] at hitem
        cases hitem
      have hline : ¬ ((c = '-' ∧ r.head? = some '-') ∨ c = '#') := by
        rintro (⟨rfl, hr⟩ | rfl)
        · obtain ⟨r, rfl⟩ := List.head?_eq_some_iff.1 hr
          cases hitem
        · cases hitem
      have hblock : ¬ (c = '/' ∧ r.head? = some '*') := by
        rintro ⟨rfl, hr⟩
        obtain ⟨r, rfl⟩ := List.head?_eq_some_iff.1 hr
        exact hending ⟨r, rfl⟩
      rw [h.passGap_cons, if_neg hspace, if_neg hline, if_neg hblock]

/-- A comment that does not end is refused where it starts. -/
theorem Placed.passGap_unending (h : Placed text place cs) (hitem : gapItem? cs = none) (hending : Unending cs) :
    passGap text place = refuse (.unterminatedComment place) := by
  obtain ⟨r, rfl⟩ := hending
  have hbody : blockComment? r = none := Option.map_eq_none_iff.1 hitem
  have hopened : Placed text (place + 2) r := (h.tail_ascii (by decide)).tail_ascii (by decide)
  have hend := hopened.passComment_spec
  rw [hbody] at hend
  rw [h.passGap_cons, if_neg (by decide), if_neg (by simp), if_pos ⟨rfl, rfl⟩]
  exact if_pos hend

theorem Placed.passGap_eq (h : Placed text place cs) (hending : ¬ Unending (gap cs).2) :
    passGap text place = .ok (place + byteLength (gap cs).1) := by
  fun_induction gap cs generalizing place with
  | case1 cs hitem => exact h.passGap_end hitem hending
  | case2 cs item rest hitem ih =>
      have hafter : Placed text (place + byteLength item) rest := by
        refine Placed.after ?_
        rwa [gapItem?_append hitem]
      rw [h.passGap_item hitem, ih hafter hending, byteLength_append, Nat.add_assoc]

theorem Placed.passGap_refused (h : Placed text place cs) (hending : Unending (gap cs).2) :
    passGap text place = refuse (.unterminatedComment (place + byteLength (gap cs).1)) := by
  fun_induction gap cs generalizing place with
  | case1 cs hitem => exact h.passGap_unending hitem hending
  | case2 cs item rest hitem ih =>
      have hafter : Placed text (place + byteLength item) rest := by
        refine Placed.after ?_
        rwa [gapItem?_append hitem]
      rw [h.passGap_item hitem, ih hafter hending, byteLength_append, Nat.add_assoc]

end DdlCatalog.Sql.Bytes
