import DdlCatalog.Sql.Bytes

/-!
Places between the characters of a text. Every byte of a character beyond ASCII is beyond ASCII too, so bytes can be
told apart wherever characters can, and a run of bytes ends between two characters.
-/

namespace DdlCatalog.Sql.Bytes

variable {text rest part cs : List Char} {place : Nat} {p : Char → Bool} {c x y : Char}

/-! ### The bytes of a character -/

def charBytes (c : Char) : List Char := (String.utf8EncodeChar c).map fun b => Char.ofNat b.toNat

theorem length_charBytes (c : Char) : (charBytes c).length = c.utf8Size := by
  rw [charBytes, List.length_map, String.length_utf8EncodeChar]

theorem toNat_ofByte (b : UInt8) : (Char.ofNat b.toNat).toNat = b.toNat := by
  have hvalid : b.toNat.isValidChar := Or.inl (by have := b.toNat_lt; omega)
  rw [Char.ofNat, dif_pos hvalid]
  rfl

theorem charBytes_ascii (h : c.toNat < 128) : charBytes c = [c] := by
  have hv : c.val.toNat ≤ 127 := Nat.le_of_lt_succ h
  rw [charBytes, String.utf8EncodeChar]
  simp only [hv, if_true, List.map_cons, List.map_nil, UInt8.toNat_ofNat']
  rw [Nat.mod_eq_of_lt (by omega)]
  exact congrArg (fun d => [d]) (Char.ofNat_toNat c)

theorem le_of_mem_utf8EncodeChar (h : 128 ≤ c.toNat) : ∀ b ∈ String.utf8EncodeChar c, 128 ≤ b.toNat := by
  have hv : ¬ c.val.toNat ≤ 127 := Nat.not_le.2 h
  rw [String.utf8EncodeChar, if_neg hv]
  intro b hb
  split at hb
  · simp only [List.mem_cons, List.not_mem_nil, or_false] at hb
    rcases hb with rfl | rfl <;> simp only [UInt8.toNat_ofNat'] <;> omega
  · split at hb
    · simp only [List.mem_cons, List.not_mem_nil, or_false] at hb
      rcases hb with rfl | rfl | rfl <;> simp only [UInt8.toNat_ofNat'] <;> omega
    · simp only [List.mem_cons, List.not_mem_nil, or_false] at hb
      rcases hb with rfl | rfl | rfl | rfl <;> simp only [UInt8.toNat_ofNat'] <;> omega

theorem le_of_mem_charBytes (h : 128 ≤ c.toNat) : ∀ b ∈ charBytes c, 128 ≤ b.toNat := by
  intro b hb
  obtain ⟨byte, hbyte, rfl⟩ := List.mem_map.1 hb
  rw [toNat_ofByte]
  exact le_of_mem_utf8EncodeChar h byte hbyte

theorem charBytes_eq_cons (c : Char) : ∃ more, charBytes c = leadByte c :: more := by
  rw [charBytes, leadByte]
  cases hbytes : String.utf8EncodeChar c with
  | nil => exact absurd hbytes String.utf8EncodeChar_ne_nil
  | cons b more => exact ⟨_, rfl⟩

theorem leadByte_ascii (h : c.toNat < 128) : leadByte c = c := by
  obtain ⟨more, hmore⟩ := charBytes_eq_cons c
  rw [charBytes_ascii h] at hmore
  exact (List.cons.inj hmore).1.symm

theorem le_leadByte (h : 128 ≤ c.toNat) : 128 ≤ (leadByte c).toNat := by
  obtain ⟨more, hmore⟩ := charBytes_eq_cons c
  exact le_of_mem_charBytes h _ (hmore ▸ List.mem_cons_self)

theorem leadByte_eq_iff (hx : x.toNat < 128) : leadByte c = x ↔ c = x := by
  rcases Nat.lt_or_ge c.toNat 128 with hc | hc
  · rw [leadByte_ascii hc]
  · have := le_leadByte hc
    constructor
    · rintro rfl
      omega
    · rintro rfl
      omega

theorem utf8Size_ascii (h : c.toNat < 128) : c.utf8Size = 1 := by
  rw [← length_charBytes, charBytes_ascii h, List.length_singleton]

theorem Placed.tail_ascii (h : Placed text place (c :: rest)) (hc : c.toNat < 128) : Placed text (place + 1) rest := by
  rw [← utf8Size_ascii hc]
  exact h.tail

/-! ### The bytes of a text -/

@[simp]
theorem bytes_nil : bytes [] = [] := rfl

theorem bytes_cons (c : Char) (cs : List Char) : bytes (c :: cs) = charBytes c ++ bytes cs := rfl

theorem bytes_append (cs ds : List Char) : bytes (cs ++ ds) = bytes cs ++ bytes ds := List.flatMap_append

@[simp]
theorem length_bytes (cs : List Char) : (bytes cs).length = byteLength cs := by
  induction cs with
  | nil => rfl
  | cons c cs ih => rw [bytes_cons, List.length_append, length_charBytes, ih, byteLength_cons]

theorem Placed.drop_bytes (h : Placed text place rest) : (bytes text).drop place = bytes rest := by
  obtain ⟨before, rfl, rfl⟩ := h
  rw [bytes_append, ← length_bytes, List.drop_left]

theorem Placed.byte? (h : Placed text place rest) : (bytes text)[place]? = rest.head?.map leadByte := by
  have hdrop : (bytes text)[place]? = ((bytes text).drop place)[0]? := by rw [List.getElem?_drop, Nat.add_zero]
  rw [hdrop, h.drop_bytes]
  cases rest with
  | nil => rfl
  | cons c r =>
      obtain ⟨more, hmore⟩ := charBytes_eq_cons c
      rw [bytes_cons, hmore]
      rfl

theorem Placed.le_length (h : Placed text place rest) : place + byteLength rest = (bytes text).length := by
  obtain ⟨before, rfl, rfl⟩ := h
  rw [length_bytes, byteLength_append]

/-- A byte of a pair in ASCII is the first one just when the pair stands there. -/
theorem Placed.pair_iff (h : Placed text place (c :: rest)) (hx : x.toNat < 128) (hy : y.toNat < 128) :
    (leadByte c = x ∧ (bytes text)[place + 1]? = some y) ↔ (c = x ∧ rest.head? = some y) := by
  rw [leadByte_eq_iff hx]
  refine and_congr_right ?_
  rintro rfl
  rw [(h.tail_ascii hx).byte?, Option.map_eq_some_iff]
  constructor
  · rintro ⟨d, hd, hlead⟩
    rw [hd, (leadByte_eq_iff hy).1 hlead]
  · exact fun hd => ⟨y, hd, leadByte_ascii hy⟩

/-! ### Runs of bytes -/

/-- A set of characters that holds all characters beyond ASCII or none of them. -/
def Uniform (p : Char → Bool) : Prop := ∀ c d : Char, 128 ≤ c.toNat → 128 ≤ d.toNat → p c = p d

theorem Uniform.leadByte_eq (hp : Uniform p) (c : Char) : p (leadByte c) = p c := by
  rcases Nat.lt_or_ge c.toNat 128 with hc | hc
  · rw [leadByte_ascii hc]
  · exact hp _ _ (le_leadByte hc) hc

theorem Uniform.charBytes_eq (hp : Uniform p) (c : Char) : ∀ b ∈ charBytes c, p b = p c := by
  intro b hb
  rcases Nat.lt_or_ge c.toNat 128 with hc | hc
  · rw [charBytes_ascii hc, List.mem_singleton] at hb
    rw [hb]
  · exact hp b c (le_of_mem_charBytes hc b hb) hc

theorem Uniform.takeWhile_bytes (hp : Uniform p) (cs : List Char) :
    (bytes cs).takeWhile p = bytes (cs.takeWhile p) := by
  induction cs with
  | nil => rfl
  | cons c cs ih =>
      cases hc : p c with
      | true =>
          rw [List.takeWhile_cons_of_pos hc, bytes_cons, bytes_cons, ← ih]
          exact List.takeWhile_append_of_pos fun b hb => (hp.charBytes_eq c b hb).trans hc
      | false =>
          obtain ⟨more, hmore⟩ := charBytes_eq_cons c
          have hlead : ¬ p (leadByte c) = true := by rw [hp.leadByte_eq, hc]; exact Bool.false_ne_true
          rw [List.takeWhile_cons_of_neg (by rw [hc]; exact Bool.false_ne_true), bytes_cons, hmore, List.cons_append,
            List.takeWhile_cons_of_neg hlead, bytes_nil]

theorem passWhile_eq_length (p : Char → Bool) (place : Nat) :
    passWhile text p place = place + (((bytes text).drop place).takeWhile p).length := by
  fun_induction passWhile text p place with
  | case1 place b hb hp ih =>
    obtain ⟨hlt, rfl⟩ := List.getElem?_eq_some_iff.1 hb
    rw [ih, List.drop_eq_getElem_cons hlt, List.takeWhile_cons_of_pos hp, List.length_cons]
    omega
  | case2 place b hb hp =>
    obtain ⟨hlt, rfl⟩ := List.getElem?_eq_some_iff.1 hb
    rw [List.drop_eq_getElem_cons hlt, List.takeWhile_cons_of_neg hp, List.length_nil, Nat.add_zero]
  | case3 place hnone =>
    rw [List.drop_eq_nil_of_le (List.getElem?_eq_none_iff.1 hnone), List.takeWhile_nil, List.length_nil, Nat.add_zero]

/-- A run of bytes is a run of characters. -/
theorem Placed.passWhile_eq (h : Placed text place rest) (hp : Uniform p) :
    passWhile text p place = place + byteLength (rest.takeWhile p) := by
  rw [passWhile_eq_length, h.drop_bytes, hp.takeWhile_bytes, length_bytes]

theorem Placed.after_run (h : Placed text place rest) (p : Char → Bool) :
    Placed text (place + byteLength (rest.takeWhile p)) (rest.dropWhile p) := by
  refine Placed.after ?_
  rwa [List.takeWhile_append_dropWhile]

theorem Placed.slice_run (h : Placed text place rest) (p : Char → Bool) :
    slice text place (place + byteLength (rest.takeWhile p)) = .ok (rest.takeWhile p) := by
  have hparts : Placed text place (rest.takeWhile p ++ rest.dropWhile p) := by
    rwa [List.takeWhile_append_dropWhile]
  exact hparts.slice_eq

end DdlCatalog.Sql.Bytes
