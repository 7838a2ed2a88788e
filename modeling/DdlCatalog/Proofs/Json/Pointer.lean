import DdlCatalog.Json.Pointer
import Mathlib.Data.List.Infix

/-!
What the steps of a pointer mean. A step in a fragment is the name of a member as it stands exactly if
nothing in it is decoded, cut or unescaped.
-/

namespace DdlCatalog.Json

variable {c : Char} {cs ds : List Char}

/-! ### Bytes -/

def utf8 (cs : List Char) : List UInt8 := cs.flatMap String.utf8EncodeChar

theorem utf8_cons (c : Char) (cs : List Char) : utf8 (c :: cs) = String.utf8EncodeChar c ++ utf8 cs := rfl

theorem length_utf8_cons (c : Char) (cs : List Char) : (utf8 (c :: cs)).length = c.utf8Size + (utf8 cs).length := by
  rw [utf8_cons, List.length_append, String.length_utf8EncodeChar]

theorem utf8Decode?_eq_some_iff {bytes : List UInt8} :
    bytes.toByteArray.utf8Decode?.map (·.toList) = some cs ↔ bytes = utf8 cs := by
  have hencode : cs.utf8Encode = (utf8 cs).toByteArray := rfl
  constructor
  · intro h
    obtain ⟨chars, hchars, rfl⟩ := Option.map_eq_some_iff.1 h
    have hbytes := ByteArray.utf8Encode_get_utf8Decode? (h := by rw [hchars]; rfl)
    simp only [hchars, Option.get_some] at hbytes
    exact (List.toByteArray_inj.1 hbytes).symm
  · rintro rfl
    rw [← hencode, List.utf8Decode?_utf8Encode]
    rfl

/-! ### Percent-decoding -/

theorem percentDecode?_eq_some_iff : percentDecode? cs = some ds ↔ percentBytes? cs = some (utf8 ds) := by
  rw [percentDecode?, Option.bind_eq_some_iff]
  constructor
  · rintro ⟨bytes, hbytes, hds⟩
    rw [hbytes, utf8Decode?_eq_some_iff.1 hds]
  · intro h
    exact ⟨utf8 ds, h, utf8Decode?_eq_some_iff.2 rfl⟩

theorem percentBytes?_cons (h : c ≠ '%') (cs : List Char) :
    percentBytes? (c :: cs) = (percentBytes? cs).map (String.utf8EncodeChar c ++ ·) := by
  rw [percentBytes?]
  all_goals simp [h]

/-- A character that stands for itself goes through. -/
theorem percentDecode?_cons (h : c ≠ '%') (cs : List Char) :
    percentDecode? (c :: cs) = (percentDecode? cs).map (c :: ·) := by
  simp only [percentDecode?, percentBytes?_cons h]
  cases percentBytes? cs with
  | none => rfl
  | some bytes =>
      simp only [Option.map_some, Option.bind_some, List.toByteArray_append, ← List.utf8Encode_singleton,
        ByteArray.utf8Decode?_utf8Encode_singleton_append, Option.map_map]
      congr 1
      funext chars
      simp

theorem percentDecode?_append (h : '%' ∉ cs) (ds : List Char) :
    percentDecode? (cs ++ ds) = (percentDecode? ds).map (cs ++ ·) := by
  induction cs with
  | nil => simp
  | cons c cs ih =>
      rw [List.mem_cons, not_or] at h
      rw [List.cons_append, percentDecode?_cons (Ne.symm h.1), ih h.2, Option.map_map]
      rfl

theorem percentDecode?_nil : percentDecode? [] = some [] := percentDecode?_eq_some_iff.2 rfl

theorem percentDecode?_self (h : '%' ∉ cs) : percentDecode? cs = some cs := by
  have := percentDecode?_append h []
  rwa [List.append_nil, percentDecode?_nil, Option.map_some, List.append_nil] at this

theorem hexDigit?_spec {n : Nat} (h : hexDigit? c = some n) : c ≠ '%' ∧ c.utf8Size = 1 := by
  refine ⟨fun hc => ?_, Char.utf8Size_eq_one_iff.2 ?_⟩
  · rw [hc] at h
    cases h
  · simp only [hexDigit?, Bool.and_eq_true, decide_eq_true_eq, Char.le_def] at h
    split at h
    · rename_i hc
      exact UInt32.le_trans hc.2 (by decide)
    · split at h
      · rename_i hc
        exact UInt32.le_trans hc.2 (by decide)
      · split at h
        · rename_i hc
          exact UInt32.le_trans hc.2 (by decide)
        · cases h

/-- A percent sign and its digits are two bytes longer than the byte they stand for. -/
theorem percentBytes?_length {bytes : List UInt8} (h : percentBytes? cs = some bytes) :
    bytes.length + 2 * cs.count '%' = (utf8 cs).length := by
  fun_induction percentBytes? cs generalizing bytes with
  | case1 => cases h; rfl
  | case2 high low cs ih =>
      simp only [bind, Option.bind_eq_some_iff, pure, Option.some.injEq] at h
      obtain ⟨_, hhigh, _, hlow, rest, hrest, rfl⟩ := h
      obtain ⟨hhigh, hhighSize⟩ := hexDigit?_spec hhigh
      obtain ⟨hlow, hlowSize⟩ := hexDigit?_spec hlow
      have hsize : '%'.utf8Size = 1 := rfl
      have := ih hrest
      simp only [length_utf8_cons, hhighSize, hlowSize, hsize, List.length_cons, List.count_cons_self,
        List.count_cons_of_ne hhigh, List.count_cons_of_ne hlow]
      omega
  | case3 cs _ => cases h
  | case4 c cs _ hc ih =>
      obtain ⟨rest, hrest, rfl⟩ := Option.map_eq_some_iff.1 h
      have := ih hrest
      rw [length_utf8_cons, List.length_append, String.length_utf8EncodeChar, List.count_cons_of_ne hc]
      omega

theorem percentDecode?_length (h : percentDecode? cs = some ds) :
    (utf8 ds).length + 2 * cs.count '%' = (utf8 cs).length :=
  percentBytes?_length (percentDecode?_eq_some_iff.1 h)

/-! ### Escapes -/

theorem length_unescape_le (cs : List Char) : (utf8 (unescape cs)).length ≤ (utf8 cs).length := by
  have hslash : '/'.utf8Size = 1 := rfl
  have htilde : '~'.utf8Size = 1 := rfl
  fun_induction unescape cs with
  | case1 cs ih | case2 cs ih =>
      simp only [length_utf8_cons]
      omega
  | case3 c cs _ _ ih =>
      simp only [length_utf8_cons]
      omega
  | case4 => exact Nat.le_refl _

theorem unescape_eq_self_iff : unescape cs = cs ↔ ¬ ['~', '0'] <:+: cs ∧ ¬ ['~', '1'] <:+: cs := by
  fun_induction unescape cs with
  | case1 cs ih => simp [List.infix_cons_iff]
  | case2 cs ih =>
      have hle := length_unescape_le cs
      have hne : unescape cs ≠ '0' :: cs := by
        intro h
        have hpos := Char.utf8Size_pos '0'
        rw [h, length_utf8_cons] at hle
        omega
      simp [List.infix_cons_iff, hne]
  | case3 c cs hone hzero ih =>
      have hprefix (e : Char) (he : e = '0' ∨ e = '1') : ¬ ['~', e] <+: c :: cs := by
        rintro ⟨r, hr⟩
        obtain ⟨rfl, rfl⟩ := List.cons.inj hr
        rcases he with rfl | rfl
        · exact hzero r rfl rfl
        · exact hone r rfl rfl
      simp [List.infix_cons_iff, hprefix, ih]
  | case4 => simp

/-! ### Steps -/

/-- Nothing in a step is decoded, cut or unescaped. -/
def Plain (cs : List Char) : Prop := '%' ∉ cs ∧ '/' ∉ cs ∧ ¬ ['~', '0'] <:+: cs ∧ ¬ ['~', '1'] <:+: cs

instance : DecidablePred Plain := fun cs =>
  inferInstanceAs (Decidable ('%' ∉ cs ∧ '/' ∉ cs ∧ ¬ ['~', '0'] <:+: cs ∧ ¬ ['~', '1'] <:+: cs))

/-- The name that a step means; none if it is more than one step or does not decode. -/
def meant? (step : String) : Option String :=
  (percentDecode? step.toList).bind fun s => if '/' ∈ s then none else some (String.ofList (unescape s))

/-- The bytes of a name tell that nothing was decoded: each percent sign would have taken two away. -/
theorem meant?_eq_self_iff {step : String} : meant? step = some step ↔ Plain step.toList := by
  simp only [meant?, Option.bind_eq_some_iff, Option.ite_none_left_eq_some, Option.some.injEq]
  constructor
  · rintro ⟨s, hs, hslash, hstep⟩
    have hself : unescape s = step.toList := by rw [← hstep, String.toList_ofList]
    have hle := length_unescape_le s
    have hlength := percentDecode?_length hs
    rw [hself] at hle
    have hpercent : '%' ∉ step.toList := List.count_eq_zero.1 (by omega)
    rw [percentDecode?_self hpercent, Option.some.injEq] at hs
    subst hs
    exact ⟨hpercent, hslash, unescape_eq_self_iff.1 hself⟩
  · rintro ⟨hpercent, hslash, hescapes⟩
    refine ⟨step.toList, percentDecode?_self hpercent, hslash, ?_⟩
    rw [unescape_eq_self_iff.2 hescapes, String.ofList_toList]

theorem steps?_slash (cs : List Char) :
    steps? ('/' :: cs) = some ((cs.splitOn '/').map fun s => String.ofList (unescape s)) := by
  rw [steps?, ← List.nil_append ('/' :: cs), List.splitOn_append_cons_self, List.splitOn_nil]
  rfl

/-- A reference of two steps, of which the first is plain, leads where its second leads from there. -/
theorem resolve?_second {reference first second : String} (hfirst : Plain first.toList)
    (href : reference.toList = '#' :: '/' :: first.toList ++ '/' :: second.toList) (document : Json) :
    resolve? reference document = (document.step? first).bind fun j =>
      (percentDecode? second.toList).bind fun s =>
        j.follow? ((s.splitOn '/').map fun s => String.ofList (unescape s)) := by
  obtain ⟨hpercent, hslash, hescapes⟩ := hfirst
  have hpre : '%' ∉ '/' :: first.toList ++ ['/'] := by simp [hpercent]
  have hparts : reference.toList = '#' :: (('/' :: first.toList ++ ['/']) ++ second.toList) := by
    rw [href]
    simp
  rw [resolve?, hparts]
  simp only [percentDecode?_append hpre]
  cases percentDecode? second.toList with
  | none => simp
  | some s =>
      have hsteps : steps? ('/' :: first.toList ++ ['/'] ++ s) =
          some (first :: (s.splitOn '/').map fun s => String.ofList (unescape s)) := by
        rw [List.append_assoc, List.cons_append, steps?_slash, List.singleton_append,
          List.splitOn_append_cons_self_of_not_mem hslash, List.map_cons, unescape_eq_self_iff.2 hescapes,
          String.ofList_toList]
      simp only [Option.map_some, Option.bind_some, hsteps, follow?]

/-! ### Values without objects -/

/-- No object is reached from a value. -/
def ObjectFree (j : Json) : Prop := ∀ steps members, j.follow? steps ≠ some (.object members)

theorem objectFree_of_leaf {j : Json} (hj : ∀ members, j ≠ .object members) (hstep : ∀ s, j.step? s = none) :
    j.ObjectFree := by
  intro steps members
  cases steps with
  | nil => simpa [follow?] using hj members
  | cons s steps => simp [follow?, hstep]

theorem objectFree_string (s : String) : (Json.string s).ObjectFree := objectFree_of_leaf nofun fun _ => rfl

theorem objectFree_number (n : Number) : (Json.number n).ObjectFree := objectFree_of_leaf nofun fun _ => rfl

theorem objectFree_array {elements : List Json} (h : ∀ j ∈ elements, j.ObjectFree) :
    (Json.array elements).ObjectFree := by
  intro steps members
  cases steps with
  | nil => simp [follow?]
  | cons s steps =>
      intro hfollow
      simp only [follow?, step?, Option.bind_eq_some_iff] at hfollow
      obtain ⟨j, ⟨i, -, hj⟩, hfollow⟩ := hfollow
      exact h j (List.mem_of_getElem? hj) steps members hfollow

end DdlCatalog.Json
